import Pettycoin.Ledger

/-!
# Pettycoin — the node over whole runs

Each handler of `recv_block.c`, `peer.c` and `recv_complain.c` keeps what is
known of the blocks right and only adds to it (`Advanced`). So does every run of
the node (`ledgerOk_of_nodeReach`). Along the way the assertions of
`put_tx_in_shard` and `put_txhash_in_shard` about what is there already are
shown not to fail when the double hash has no collisions (`PutAgrees`).

* `recvShard_advanced`, `recvProvenTx_advanced` — two of the handlers;
* `nodeStep_advanced` — any event;
* `ledgerOk_of_nodeReach` — any run;
* `proofs_bind_positions` — what an accepted proof says, in every state reached.
-/

namespace Pettycoin

open ExceptRules

variable {D : Type} [Digest D] [DecidableEq D] {E : Env D} {s s₀ s' : State D}
  {b shardnum txoff : Nat}

-- ---------------------------------------------------------------------------
-- The assertions
-- ---------------------------------------------------------------------------

/-- What is put in a place is not what is there. -/
def Fault.PutDiffers : Fault → Prop
  | .putTxDiffers | .putTxHashDiffers | .putTxhashDiffers => True
  | _ => False

/-- None of these, if the double hash has no collisions. -/
def PutAgrees (C : Crypto D) (e : Fault) : Prop :=
  Function.Injective C.doubleSha → ¬ e.PutDiffers

omit [Digest D] [DecidableEq D] in
theorem putAgrees_of_elsewhere (C : Crypto D) (e : Fault) (h : e.Elsewhere) : PutAgrees C e := by
  intro _ hput
  apply h
  cases e <;> trivial

omit [Digest D] [DecidableEq D] in
theorem putAgrees_of_plain (C : Crypto D) (e : Fault) (h : e.Plain) : PutAgrees C e :=
  putAgrees_of_elsewhere C e h.elsewhere

/-- What a frame ensures. -/
theorem Advanced.ensures {α : Type} {x : Res α} {g : α → State D} (ha : Advanced E s₀ s)
    (hx : Ensures Fault.Plain x fun r => Frame E s (g r)) :
    Ensures (PutAgrees E.crypto) x fun r => Advanced E s₀ (g r) :=
  (hx.mono fun _ hf => ha.frame hf).weaken (putAgrees_of_plain _)

omit [Digest D] [DecidableEq D] in
/-- A call that changes nothing. -/
theorem StopsPlainly.agrees {α : Type} {x : Res α} (C : Crypto D) (hx : StopsPlainly x) :
    Ensures (PutAgrees C) x fun _ => True :=
  hx.weaken (putAgrees_of_plain C)

/-- Without collisions a place has one entry. -/
theorem Proven.unique {C : Crypto D} (hC : Function.Injective C.doubleSha) {blk : Block D}
    {h h' : TxRefHash D} (hp : Proven C blk shardnum txoff h)
    (hp' : Proven C blk shardnum txoff h') : h = h' := by
  obtain ⟨proof, hshard, htxoff, hacc⟩ := hp
  obtain ⟨proof', hshard', htxoff', hacc'⟩ := hp'
  refine checkProofByhash_same_pos hC ?_ ?_ hacc hacc'
  · exact UInt16.toNat_inj.mp (hshard.trans hshard'.symm)
  · exact UInt8.toNat_inj.mp (htxoff.trans htxoff'.symm)

omit [DecidableEq D] in
/-- Without collisions the entry says which transaction it is. -/
theorem sameTxp_of_hash {C : Crypto D} (hC : Function.Injective C.doubleSha) {tx tx' : Tx D}
    {refs refs' : List InputRef} (h : hashTxAndRefs C tx refs = hashTxAndRefs C tx' refs') :
    sameTxp tx refs tx' refs' = true := by
  injection h with htx hrefs
  unfold sameTxp
  rw [hC htx, hC hrefs, beq_iff_eq]
  exact List.take_length

-- ---------------------------------------------------------------------------
-- Filling a shard
-- ---------------------------------------------------------------------------

/-- The debugging check stops with its own fault or elsewhere. -/
theorem checkBlockShard_agrees (fault : Fault) (hfault : ¬ fault.PutDiffers) :
    Ensures (PutAgrees E.crypto) (checkBlockShard E s b shardnum fault) fun _ => True := by
  have hassert : ∀ cond : Bool, Ensures (PutAgrees E.crypto) (assert cond fault) fun _ => True :=
    fun cond => ensures_assert (fun _ => trivial) fun _ _ => hfault
  have htx : ∀ i tx refs, Ensures (PutAgrees E.crypto)
      (checkShardTx E s b shardnum i tx refs fault) fun _ => True := by
    intro i tx refs
    unfold checkShardTx
    refine (hassert _).bind fun _ _ => ?_
    refine ((checkTxInputs_plain E s b _ tx).agrees E.crypto).bind fun r _ => ?_
    obtain ⟨ierr, bad⟩ := r
    refine (hassert _).bind fun _ _ => ?_
    split
    · trivial
    · exact ((stopsPlainly_deref _).agrees E.crypto).bind fun _ _ => hassert _
  unfold checkBlockShard
  refine (hassert _).bind fun _ _ => ?_
  dsimp only
  refine Ensures.bind (P := fun _ => True) ?_ fun _ _ => ?_
  · unfold checkShardProof
    split_ifs
    · exact hassert _
    · exact hassert _
    · trivial
  · refine Ensures.bind (P := fun _ => True) (Ensures.forM fun i _ => ?_) fun _ _ => ?_
    · split
      · exact htx _ _ _
      · trivial
    · refine (hassert _).bind fun _ _ => ?_
      refine (hassert _).bind fun _ _ => ?_
      split_ifs
      · refine ((merkleSomeTxs_plain _ _ _ _).agrees E.crypto).bind fun _ _ => hassert _
      · trivial

section

variable {tx : Tx D} {refs : List InputRef}

/-- What `put_tx_in_shard` does once the slot is filled. -/
theorem afterPutTx_advanced (ha : Advanced E s₀ s) (source : Option Nat) :
    Ensures (PutAgrees E.crypto) (afterPutTx E s source b shardnum txoff tx)
      (Advanced E s₀) := by
  unfold afterPutTx
  refine (((checkResolvedTxs_frame (Frame.refl E s) tx).mono fun _ hf => ha.frame hf).weaken
    (putAgrees_of_elsewhere _)).bind fun s₁ h₁ => ?_
  have h₂ : Advanced E s₀
      (if shardAllHashes (s₁.shardOf b shardnum) then
        s₁.modShard b shardnum fun shard => { shard with proof := none }
      else s₁) := by
    split_ifs with hall
    · exact ⟨h₁.ledger.dropProofs hall, h₁.later.trans (later_modProof _ fun _ => none)⟩
    · exact h₁
  generalize (if shardAllHashes (s₁.shardOf b shardnum) then
        s₁.modShard b shardnum fun shard => { shard with proof := none }
      else s₁) = s₂ at h₂ ⊢
  dsimp only
  have hrest : ∀ s₃, Advanced E s₀ s₃ → Ensures (PutAgrees E.crypto) (do
      let s₄ ← saveTx E.crypto s₃.setNeedsRecheck b shardnum txoff
      let s₅ ← sendTxInBlockToPeers E.crypto s₄ source b shardnum txoff
      checkBlockShard E s₅ b shardnum .checkShardAfterTx
      Except.ok s₅) (Advanced E s₀) := by
    intro s₃ h₃
    have h₃' := h₃.frame (Frame.refl E s₃).setNeedsRecheck
    refine Ensures.bind (P := Advanced E s₀) ?_ fun s₄ h₄ => ?_
    · unfold saveTx
      split_ifs
      · exact h₃'
      · exact ((provenTxAt_plain _ _ _ _ _).agrees E.crypto).bind fun _ _ => h₃'.emit _
    · refine Ensures.bind (P := Advanced E s₀) ?_ fun s₅ h₅ => ?_
      · unfold sendTxInBlockToPeers
        exact ((provenTxAt_plain _ _ _ _ _).agrees E.crypto).bind fun _ _ => h₄.emit _
      · exact (checkBlockShard_agrees _ id).bind fun _ _ => h₅
  split_ifs
  · refine Ensures.bind (P := Advanced E s₀) ?_ hrest
    exact h₂.ensures (g := id) ((updateBlockPtrsNewShard_quiet E.crypto (.refl s₂) b).mono
      fun _ hq => (Frame.refl E s₂).quiet hq)
  · exact hrest s₂ h₂

/-- Putting a transaction where it is proven to be. -/
theorem putTxInShard_advanced (ha : Advanced E s₀ s) (source : Option Nat)
    (hb : b < s.numBlocks)
    (hproven : Proven E.crypto (s.blk b) shardnum txoff (hashTxAndRefs E.crypto tx refs))
    (hok : TxOk E.crypto tx)
    (hproof : shardAllHashes (s.shardOf b shardnum) = true ∨
      ((s.shardOf b shardnum).proof.bind (· txoff)).isSome) :
    Ensures (PutAgrees E.crypto) (putTxInShard E s source b shardnum txoff tx refs)
      (Advanced E s₀) := by
  have hl := ha.ledger
  unfold putTxInShard
  cases hu : (s.shardOf b shardnum).u txoff with
  | tx tx' refs' =>
    refine Ensures.bind (P := fun _ => True) ?_ fun _ _ => ha
    refine ensures_assert (fun _ => trivial) fun hdiffers hC => ?_
    have hthere := hl.proven b shardnum txoff _ (entryAt_tx hu)
    rw [sameTxp_of_hash hC (hproven.unique hC hthere)] at hdiffers
    exact absurd hdiffers (by simp)
  | hash h =>
    dsimp only
    rw [fillSlot_of_hash hu]
    split_ifs with hh
    · subst hh
      have hs := hl.slotSet_hash hu
      refine afterPutTx_advanced ⟨hl.filledHash hu hb hok, ha.later.trans (hs.later ?_)⟩ source
      intro h' hentry
      rw [entryAt_hash hu] at hentry
      exact (Option.some.inj hentry).symm
    · intro hC
      exact absurd ((hl.proven b shardnum txoff h (entryAt_hash hu)).unique hC hproven) hh
  | unknown =>
    dsimp only
    rw [fillSlot_of_unknown hu]
    have hl' := hl.filledUnknown hb hu hproven hok hproof
    have hoff : txoff < (s.blk b).shardSize shardnum := by
      obtain ⟨proof, rfl, rfl, hacc⟩ := hproven
      exact (checkProofByhash_eq_true.mp hacc).2.1
    refine afterPutTx_advanced ⟨hl', ha.later.trans ((hl.slotSet_unknown _ _ hu hoff).later ?_)⟩ source
    intro h' hentry
    rw [entryAt_eq_none.mpr hu] at hentry
    exact absurd hentry (by simp)

end

/-- Putting a hash where it is proven to be. The places of `P` may lack a proof. -/
theorem putTxhashInShard_spec (hl : Ledger E s) {h : TxRefHash D}
    {P : Nat → Nat → Nat → Prop} (hk : ProofsKeptBut E.crypto s P) (hP : P b shardnum txoff)
    (hb : b < s.numBlocks) (hproven : Proven E.crypto (s.blk b) shardnum txoff h) :
    Ensures (PutAgrees E.crypto) (putTxhashInShard E s b shardnum txoff h) fun r =>
      Ledger E r.1 ∧ ProofsKeptBut E.crypto r.1 P ∧ Later E.crypto s r.1 ∧
        entryAt E.crypto r.1 b shardnum txoff = some h ∧ (r.2 = false → r.1 = s) := by
  unfold putTxhashInShard
  cases hentry : txrefhashInShard E.crypto (s.shardOf b shardnum) txoff with
  | some p =>
    have hthere := hl.proven b shardnum txoff p hentry
    refine Ensures.bind (P := fun _ => p = h) ?_ fun _ hp => ?_
    · refine ensures_assert of_decide_eq_true fun hdiffers hC => ?_
      exact absurd (hthere.unique hC hproven) (of_decide_eq_false hdiffers)
    · exact ⟨hl, hk, Later.refl _ _, hp ▸ hentry, fun _ => rfl⟩
  | none =>
    have hu := txrefhashInShard_eq_none.mp hentry
    obtain ⟨hl', hk'⟩ := hl.setHash hb hu hproven hk hP
    have hoff : txoff < (s.blk b).shardSize shardnum := by
      obtain ⟨proof, rfl, rfl, hacc⟩ := hproven
      exact (checkProofByhash_eq_true.mp hacc).2.1
    have hs := hl.slotSet_setHash hu hoff (h := h)
    have hf := (Frame.refl E (addTxhashToHashes E
      (s.modShard b shardnum fun shard => shard.setHash txoff h) b shardnum txoff
      h.txhash)).setNeedsRecheck
    refine (checkBlockShard_agrees _ id).bind fun _ _ => ⟨hl', hk', ?_, ?_, by simp⟩
    · refine (hs.later fun h' hentry' => ?_).trans hf.later
      rw [entryAt_eq_none.mpr hu] at hentry'
      exact absurd hentry' (by simp)
    · rw [hf.entryAt_eq, hs.entryAt_eq, if_pos ⟨rfl, rfl, rfl⟩]

-- ---------------------------------------------------------------------------
-- Resolving hashes
-- ---------------------------------------------------------------------------

/-- A transaction found for a hash is the transaction of that hash. -/
theorem findTxWithRef_spec (hl : Ledger E s) {h : TxRefHash D} {tx : Tx D}
    {refs : List InputRef} (hfind : findTxWithRef E s b h = some (tx, refs)) :
    hashTxAndRefs E.crypto tx refs = h ∧ TxOk E.crypto tx := by
  unfold findTxWithRef at hfind
  obtain ⟨te, hte, hin⟩ := List.exists_of_findSome?_eq_some hfind
  obtain ⟨hmem, hsha⟩ := List.mem_filter.mp hte
  rw [beq_iff_eq] at hsha
  cases htx : txhashTx s te with
  | none =>
    rw [htx] at hin
    exact absurd hin (by simp)
  | some tx' =>
    rw [htx] at hin
    simp only [Option.bind_eq_bind, Option.bind_some] at hin
    cases hrefs : createRefs s b tx' 0 with
    | none =>
      rw [hrefs] at hin
      exact absurd hin (by simp)
    | some refs' =>
      rw [hrefs] at hin
      simp only [Option.bind_some] at hin
      split_ifs at hin with hhash
      injection hin with hin
      injection hin with htx' hrefs'
      subst htx' hrefs'
      have hof : te.sha = hashTx E.crypto tx' ∧ TxOk E.crypto tx' := by
        unfold txhashTx at htx
        split at htx
        · rename_i y i j hloc
          unfold txFor at htx
          split at htx
          · rename_i tx'' refs'' hu
            injection htx with htx
            subst htx
            obtain ⟨-, e, hentry, he⟩ := hl.inBlock te hmem y i j hloc
            rw [entryAt_tx hu] at hentry
            rw [← he, ← Option.some.inj hentry]
            exact ⟨rfl, hl.txOk _ (Or.inl ⟨y, i, j, refs'', hu⟩)⟩
          · exact absurd htx (by simp)
        · rename_i tx'' hloc
          injection htx with htx
          subst htx
          exact ⟨hl.pending te hmem _ hloc, hl.txOk _ (Or.inr (Or.inr (Or.inr ⟨te, hmem, hloc⟩)))⟩
      refine ⟨?_, hof.2⟩
      unfold hashTxAndRefs
      rw [← hof.1, hsha, hhash]

theorem tryResolveHash_advanced (ha : Advanced E s₀ s) (source : Option Nat)
    (hb : b < s.numBlocks) :
    Ensures (PutAgrees E.crypto) (tryResolveHash E s source b shardnum txoff) fun r =>
      Advanced E s₀ r.1 ∧ s.numBlocks ≤ r.1.numBlocks := by
  have hl := ha.ledger
  unfold tryResolveHash
  split
  · rename_i h hu
    have hentry := entryAt_hash (C := E.crypto) hu
    split
    · exact ⟨ha, Nat.le_refl _⟩
    · rename_i tx refs hfind
      obtain ⟨hhash, hok⟩ := findTxWithRef_spec hl.toLedger hfind
      split
      · refine ((createProof_plain _ _ _ _ _).agrees E.crypto).bind fun proof _ => ?_
        refine (hl.advanced.ensures (g := id)
          (complainMisorder_frame (Frame.refl E s) b _ _)).bind fun s₁ h₁ => ?_
        exact ⟨⟨h₁.ledger, ha.later.trans h₁.later⟩, h₁.later.numBlocks⟩
      · have hproven := hl.proven b shardnum txoff h hentry
        rw [← hhash] at hproven
        refine (putTxInShard_advanced hl.advanced source hb hproven hok
          (hl.proofs b shardnum txoff h hentry)).bind fun s₁ h₁ => ?_
        exact ⟨⟨h₁.ledger, ha.later.trans h₁.later⟩, h₁.later.numBlocks⟩
  · intro _
    exact id

theorem tryResolveHashes_advanced (source : Option Nat) (addTodos : Bool) (l : List Nat)
    (ha : Advanced E s₀ s) (hb : b < s.numBlocks) :
    Ensures (PutAgrees E.crypto) (tryResolveHashes E source b shardnum addTodos l s)
      (Advanced E s₀) := by
  induction l generalizing s with
  | nil => exact ha
  | cons i rest ih =>
    unfold tryResolveHashes
    split_ifs
    · exact ha
    · exact ih ha hb
    · refine (tryResolveHash_advanced ha source hb).bind fun r hr => ?_
      obtain ⟨s₁, resolved⟩ := r
      dsimp only at hr ⊢
      split_ifs
      · exact ih (hr.1.emit _) (hb.trans_le hr.2)
      · exact ih hr.1 (hb.trans_le hr.2)

theorem resolveHashesOf_advanced (source : Option Nat) (elems : List (TxhashElem D))
    (ha : Advanced E s₀ s) :
    Ensures (PutAgrees E.crypto) (resolveHashesOf E source elems s) (Advanced E s₀) := by
  induction elems generalizing s with
  | nil => exact ha
  | cons te rest ih =>
    unfold resolveHashesOf
    split
    · exact ih ha
    · rename_i y i j hloc
      split_ifs with hthere
      · simp only [Bool.and_eq_true, decide_eq_true_eq] at hthere
        have hy := (ha.ledger.inBlock te hthere.1 y i j hloc).1
        exact (tryResolveHash_advanced ha source hy).bind fun r hr => ih hr.1
      · exact ih ha

-- ---------------------------------------------------------------------------
-- A whole shard
-- ---------------------------------------------------------------------------

/-- A list with the root of the shard proves each of its entries. -/
theorem proven_of_merkleHashes {C : Crypto D} {blk : Block D} {shard : UInt16}
    {hashes : List (TxRefHash D)} {m : D} (hshard : shard.toNat < blk.numShards)
    (hlen : hashes.length = blk.shardSize shard.toNat)
    (hroot : merkleHashes C hashes 0 hashes.length = .ok m)
    (hm : blk.merkles[shard.toNat]? = some m) {i : Nat} {h : TxRefHash D}
    (hi : hashes[i]? = some h) : Proven C blk shard.toNat i h := by
  have hlt : i < hashes.length := (List.getElem?_eq_some_iff.mp hi).1
  have hsize := blk.shardSize_lt shard.toNat
  let proof : Proof D :=
    { pos := { block := blk.sha, shard := shard, txoff := UInt8.ofNat i, unused := 0 }
      merkle := fun k => MerkleTree.root (merkleTwoHashes C) (paddedLeaf C fun n => hashes[n]?) k
        (MerkleTree.siblingStart i k) }
  have hoff : proof.pos.txoff.toNat = i :=
    UInt8.toNat_ofNat_of_lt' (by simp [UInt8.size]; omega)
  refine ⟨proof, rfl, hoff, checkProofByhash_eq_true.mpr ⟨hshard, ?_, ?_⟩⟩
  · show proof.pos.txoff.toNat < blk.shardSize shard.toNat
    omega
  · have hclimb : proofMerklesTo C h proof = entriesRoot C fun n => hashes[n]? := by
      refine proofMerklesTo_eq_entriesRoot (by rw [hoff, hi]) fun k => ?_
      rw [hoff]
    rw [merkleHashes_eq_entriesRoot] at hroot
    injection hroot with hroot
    rw [hclimb, hroot]
    exact hm

/-- The places of one shard. -/
def InShard (b shardnum : Nat) (y i _j : Nat) : Prop := y = b ∧ i = shardnum

/-- The hashes of a shard are put one after the other. -/
theorem putTxhashesInShard_spec (hashes : List (TxRefHash D)) (n : Nat) (hl : Ledger E s)
    (hk : ProofsKeptBut E.crypto s (InShard b shardnum)) (hb : b < s.numBlocks)
    (hproven : ∀ j h, hashes[j]? = some h → Proven E.crypto (s.blk b) shardnum (n + j) h) :
    Ensures (PutAgrees E.crypto) (putTxhashesInShard E b shardnum hashes n s) fun s' =>
      Ledger E s' ∧ ProofsKeptBut E.crypto s' (InShard b shardnum) ∧ Later E.crypto s s' ∧
        ∀ j < hashes.length, entryAt E.crypto s' b shardnum (n + j) ≠ none := by
  induction hashes generalizing n s with
  | nil => exact ⟨hl, hk, Later.refl _ _, fun j hj => absurd hj (Nat.not_lt_zero j)⟩
  | cons h rest ih =>
    unfold putTxhashesInShard
    refine (putTxhashInShard_spec hl hk ⟨rfl, rfl⟩ hb (hproven 0 h rfl)).bind fun r hr => ?_
    obtain ⟨s₁, new⟩ := r
    obtain ⟨hl₁, hk₁, hlater, hentry, -⟩ := hr
    dsimp only at hl₁ hk₁ hlater hentry ⊢
    have hb₁ := hb.trans_le hlater.numBlocks
    refine (ih (n + 1) hl₁ hk₁ hb₁ fun j e he => ?_).mono fun s₂ h₂ => ?_
    · have hj := hproven (j + 1) e he
      rw [show n + (j + 1) = n + 1 + j by omega] at hj
      exact hlater.proven hb hj
    · obtain ⟨hl₂, hk₂, hlater₂, hknown⟩ := h₂
      refine ⟨hl₂, hk₂, hlater.trans hlater₂, fun j hj => ?_⟩
      cases j with
      | zero =>
        rw [hlater₂.entry b shardnum (n + 0) h hb₁ hentry]
        simp
      | succ j =>
        have hj' := hknown j (by simpa using hj)
        rwa [show n + 1 + j = n + (j + 1) by omega] at hj'

theorem recvShard_advanced (ha : Advanced E s₀ s) (peer : Option Peer) (pkt : PktShard D) :
    Ensures (PutAgrees E.crypto) (recvShard E s peer pkt) fun r => Advanced E s₀ r.1 := by
  have hl := ha.ledger
  have htell : ∀ b, Advanced E s₀ (tellComplaint s peer b) := by
    intro b
    unfold tellComplaint
    split
    · exact ha.emit _
    · exact ha
  unfold recvShard
  dsimp only
  split
  · exact ha.emit _
  · rename_i b hfind
    have hb := (blockFindAny_spec hfind).1
    split_ifs with hcomplaint hshard hlen hempty
    · exact htell b
    · exact ha
    · exact ha
    · exact ha
    · rw [not_not] at hlen
      rw [← hlen]
      rw [merkleHashes_eq_entriesRoot, ok_bind]
      split_ifs with hmerkle
      · exact ha
      · rw [not_not] at hmerkle
        have hproven : ∀ j h, pkt.hashes[j]? = some h →
            Proven E.crypto (s.blk b) pkt.shard.toNat (0 + j) h := by
          intro j h hj
          rw [Nat.zero_add]
          exact proven_of_merkleHashes (by omega) hlen (merkleHashes_eq_entriesRoot _ _) hmerkle hj
        have hk : ProofsKeptBut E.crypto s (InShard b pkt.shard.toNat) :=
          fun y i j h _ hentry => hl.proofs y i j h hentry
        refine (putTxhashesInShard_spec pkt.hashes 0 hl.toLedger hk hb hproven).bind
          fun s₁ h₁ => ?_
        obtain ⟨hl₁, hk₁, hlater, hknown⟩ := h₁
        have hall : shardAllHashes (s₁.shardOf b pkt.shard.toNat) = true := by
          refine hl₁.allHashes_of_filled fun n hn hu => ?_
          rw [hl₁.size] at hn
          have hsize : (s₁.blk b).shardSize pkt.shard.toNat
              = (s.blk b).shardSize pkt.shard.toNat := by
            unfold Block.shardSize
            rw [hlater.shardNums_eq hb]
          have hn' := hknown n (by omega)
          rw [Nat.zero_add] at hn'
          exact hn' (entryAt_eq_none.mpr hu)
        have hl₁' : LedgerOk E s₁ := by
          refine ⟨hl₁, fun y i j h hentry => ?_⟩
          by_cases hP : InShard b pkt.shard.toNat y i j
          · obtain ⟨rfl, rfl⟩ := hP
            exact Or.inl hall
          · exact hk₁ y i j h hP hentry
        refine Ensures.bind ?_ fun s₂ h₂ => h₂
        exact tryResolveHashes_advanced _ _ _ ⟨hl₁', ha.later.trans hlater⟩
          (hb.trans_le hlater.numBlocks)

-- ---------------------------------------------------------------------------
-- Hashes and transactions with a proof
-- ---------------------------------------------------------------------------

omit [DecidableEq D] in
theorem later_putProofInShard (C : Crypto D) (proof : Proof D) :
    Later C s (putProofInShard s b proof) := by
  unfold putProofInShard
  dsimp only
  split_ifs
  · exact Later.refl _ _
  · exact later_modProof C fun shard => (shard.addProof proof).proof

theorem recvHashesInBlock_advanced (ha : Advanced E s₀ s) (peer : Peer) (pkt : HashProof D) :
    Ensures (PutAgrees E.crypto) (recvHashesInBlock E s peer pkt) fun r => Advanced E s₀ r.1 := by
  have hl := ha.ledger
  unfold recvHashesInBlock
  dsimp only
  split
  · exact ha.emit _
  · rename_i b hfind
    have hb := (blockFindAny_spec hfind).1
    split_ifs with hproof
    · exact ha
    · have hproven : Proven E.crypto (s.blk b) pkt.proof.pos.shard.toNat
          pkt.proof.pos.txoff.toNat pkt.txrefhash := ⟨pkt.proof, rfl, rfl, by simpa using hproof⟩
      have hk : ProofsKeptBut E.crypto s fun y i j =>
          y = b ∧ i = pkt.proof.pos.shard.toNat ∧ j = pkt.proof.pos.txoff.toNat :=
        fun y i j h _ hentry => hl.proofs y i j h hentry
      refine (putTxhashInShard_spec hl.toLedger hk ⟨rfl, rfl, rfl⟩ hb hproven).bind
        fun r hr => ?_
      obtain ⟨s₁, new⟩ := r
      obtain ⟨hl₁, hk₁, hlater, -, hsame⟩ := hr
      dsimp only at hl₁ hk₁ hlater hsame ⊢
      cases new with
      | false =>
        simp only [Bool.not_false, if_true]
        rw [hsame rfl]
        exact ha
      | true =>
        simp only [Bool.not_true, Bool.false_eq_true, if_false]
        have h₂ : Advanced E s₀ (putProofInShard s₁ b pkt.proof) :=
          ⟨(hl₁.putProof pkt.proof hk₁).1,
            (ha.later.trans hlater).trans (later_putProofInShard _ _)⟩
        have hb₂ : b < (putProofInShard s₁ b pkt.proof).numBlocks :=
          (hb.trans_le hlater.numBlocks).trans_le
            (later_putProofInShard E.crypto pkt.proof).numBlocks
        refine (tryResolveHash_advanced h₂ _ hb₂).bind fun r hr => ?_
        obtain ⟨s₃, resolved⟩ := r
        dsimp only at hr ⊢
        split_ifs
        · exact hr.1
        · exact hr.1.emit _

omit [DecidableEq D] in
/-- With the one shard order there is, `check_tx` does not depend on the block. -/
theorem txOk_of_checkTx [DecidableEq D] {C : Crypto D} {tx : Tx D}
    (horder : (s.blk b).hdr.shardOrder = protocolInitialShardOrder)
    (h : checkTx C s tx (some b) = .none) : TxOk C tx := by
  intro s'
  cases tx with
  | fromGateway t =>
    unfold checkTx at h ⊢
    simp only [horder] at h
    exact h
  | normal t => exact h
  | toGateway t => exact h
  | claim t => exact h

theorem recvProvenTx_advanced (ha : Advanced E s₀ s) (source : Option Nat) (hb : b < s.numBlocks)
    {t : ProvenTx D} (hcheck : checkProof E.crypto t.proof (s.blk b) t.tx t.refs = true)
    (hok : TxOk E.crypto t.tx) :
    Ensures (PutAgrees E.crypto) (recvProvenTx E s source b t) (Advanced E s₀) := by
  unfold recvProvenTx
  dsimp only
  refine ((checkTxInputsAndRefs_frame (Frame.refl E s) b t).weaken
    (putAgrees_of_plain E.crypto)).bind fun r hf => ?_
  obtain ⟨s₁, valid⟩ := r
  dsimp only at hf ⊢
  have h₁ := ha.frame hf
  split_ifs
  · exact h₁
  · split
    · exact h₁.ensures (g := id) (complainMisorder_frame (Frame.refl E s₁) b t _)
    · have hk : ProofsKeptBut E.crypto s₁ fun y i j =>
          y = b ∧ i = t.proof.pos.shard.toNat ∧ j = t.proof.pos.txoff.toNat :=
        fun y i j h _ hentry => h₁.ledger.proofs y i j h hentry
      obtain ⟨hl₂, hproof⟩ := h₁.ledger.putProof t.proof hk
      have hlater := hf.later.trans (later_putProofInShard (b := b) E.crypto t.proof)
      have hproven : Proven E.crypto (s.blk b) t.proof.pos.shard.toNat t.proof.pos.txoff.toNat
          (hashTxAndRefs E.crypto t.tx t.refs) := ⟨t.proof, rfl, rfl, hcheck⟩
      exact putTxInShard_advanced
        ⟨hl₂, h₁.later.trans (later_putProofInShard E.crypto t.proof)⟩ source
        (hb.trans_le hlater.numBlocks) (hlater.proven hb hproven) hok hproof

theorem recvTxInBlock_advanced (ha : Advanced E s₀ s) (peer : Option Peer) (t : ProvenTx D) :
    Ensures (PutAgrees E.crypto) (recvTxInBlock E s peer t) fun r => Advanced E s₀ r.1 := by
  unfold recvTxInBlock
  split
  · simp only [ensures_ok]
    split_ifs
    · exact ha.emit _
    · exact ha
  · rename_i b hfind
    have hb := (blockFindAny_spec hfind).1
    dsimp only
    split_ifs with htx hlen hrefs hproof
    · exact ha
    · exact ha
    · exact ha
    · exact ha
    · rw [not_not] at htx
      refine (recvProvenTx_advanced ha _ hb (by simpa using hproof) ?_).bind fun s₁ h₁ => h₁
      exact txOk_of_checkTx (ha.ledger.shardOrder b) htx

-- ---------------------------------------------------------------------------
-- Transactions on their own
-- ---------------------------------------------------------------------------

omit [DecidableEq D] in
/-- `check_tx` outside a block does not look at the state. -/
theorem txOk_of_checkTx_none [DecidableEq D] {C : Crypto D} {tx : Tx D}
    (h : checkTx C s tx none = .none) : TxOk C tx := by
  intro s'
  cases tx <;> exact h

theorem recvPendingTx_advanced (ha : Advanced E s₀ s) (peer : Peer) (tx : Tx D) :
    Ensures (PutAgrees E.crypto) (recvPendingTx E s peer tx) (Advanced E s₀) := by
  unfold recvPendingTx
  exact (resolveHashesOf_advanced _ _ ha).bind fun _ h => h.emit _

theorem recvTx_advanced (ha : Advanced E s₀ s) (peer : Peer) (tx : Tx D) :
    Ensures (PutAgrees E.crypto) (recvTx E s peer tx) fun r => Advanced E s₀ r.1 := by
  have hderef : ∀ {α : Type} (o : Option α), Ensures (PutAgrees E.crypto) (deref o)
      fun _ => True := fun o => (stopsPlainly_deref o).agrees E.crypto
  unfold recvTx
  dsimp only
  split_ifs with hcheck
  · exact ha
  · rw [not_not] at hcheck
    have hfine : Fine E s tx := Or.inr (txOk_of_checkTx_none hcheck)
    refine (ha.ensures (addPendingTx_frame (Frame.refl E s) hfine)).bind fun r h₁ => ?_
    obtain ⟨s₁, r⟩ := r
    dsimp only at h₁ ⊢
    split
    · exact (recvPendingTx_advanced h₁ peer tx).bind fun _ h => h
    · refine (hderef _).bind fun inp _ => ?_
      refine Ensures.bind (P := Advanced E s₀) ?_ fun _ h => h
      split_ifs
      · exact recvPendingTx_advanced (h₁.emit _) peer tx
      · exact recvPendingTx_advanced h₁ peer tx
    · split_ifs
      · exact h₁
      · unfold tellPeerAboutBadInput
        refine Ensures.bind (P := Advanced E s₀) ?_ fun _ h => h
        exact (hderef _).bind fun _ _ => (hderef _).bind fun _ _ => h₁.emit _
    · unfold tellPeerAboutBadAmount
      refine Ensures.bind (P := Advanced E s₀) ?_ fun _ h => h
      exact Ensures.bind (Ensures.mapM fun _ _ => hderef _) fun _ _ => h₁.emit _
    · unfold tellPeerAboutDoublespend
      refine Ensures.bind (P := Advanced E s₀) ?_ fun _ h => h
      refine (hderef _).bind fun _ _ => (hderef _).bind fun pos _ => ?_
      obtain ⟨y, i, j⟩ := pos
      refine (hderef _).bind fun _ _ => ?_
      split
      · exact fun _ => id
      · exact h₁.emit _
    · refine (hderef _).bind fun inp _ => ?_
      unfold sendClaimInput
      refine Ensures.bind (P := Advanced E s₀) ?_ fun _ h => h
      refine (hderef _).bind fun pos _ => ?_
      obtain ⟨y, i, j⟩ := pos
      exact ((provenTxAt_plain _ _ _ _ _).agrees E.crypto).bind fun _ _ => h₁.emit _

-- ---------------------------------------------------------------------------
-- Blocks
-- ---------------------------------------------------------------------------

omit [DecidableEq D] in
theorem beatsTarget_plain (sha : D) (difficulty : UInt32) :
    StopsPlainly (beatsTarget sha difficulty) := by
  unfold beatsTarget
  dsimp only
  refine (stopsPlainly_assert .beatsTarget trivial).bind fun _ _ => ?_
  split_ifs <;> trivial

omit [Digest D] [DecidableEq D] in
theorem getDifficulty_plain (s : State D) (prev : Nat) :
    StopsPlainly (getDifficulty s prev) := by
  unfold getDifficulty encodeDifficulty
  dsimp only
  split_ifs
  · trivial
  all_goals
    split
    · exact trivial
    · refine Ensures.bind (P := fun _ => True) ?_ fun _ _ => ?_
      · refine (stopsPlainly_assert .encodeDifficulty trivial).bind fun _ _ => ?_
        exact (stopsPlainly_assert .encodeDifficulty trivial).bind fun _ _ => trivial
      · split_ifs <;> trivial

/-- What a header that passes says of the block before. -/
theorem checkBlockHeader_spec (C : Crypto D) (s : State D) (p : BlockParts D) :
    Ensures Fault.Plain (checkBlockHeader C s p) fun r => ∀ prev : Nat,
      r = (.none, some prev) → blockFindAny s p.hdr.prevBlock = some prev ∧
        p.hdr.shardOrder = protocolInitialShardOrder ∧
        p.hdr.depth = (s.blk prev).hdr.depth + 1 := by
  unfold checkBlockHeader
  split_ifs
  · intro prev hr
    exact absurd hr (by simp)
  · refine (beatsTarget_plain _ _).bind fun enough _ => ?_
    split_ifs
    · intro prev hr
      exact absurd hr (by simp)
    · cases hfind : blockFindAny s p.hdr.prevBlock with
      | none =>
        intro prev hr
        exact absurd hr (by simp)
      | some prev =>
        have hagainst : Ensures Fault.Plain (checkAgainstPrev s p prev) fun e =>
            e = .none → p.hdr.shardOrder = protocolInitialShardOrder ∧
              p.hdr.depth = (s.blk prev).hdr.depth + 1 := by
          unfold checkAgainstPrev
          split_ifs with horder hdepth
          · exact fun h => absurd h (by simp)
          · exact fun h => absurd h (by simp)
          · exact fun h => absurd h (by simp)
          · rw [not_not] at horder hdepth
            refine (getDifficulty_plain s prev).bind fun _ _ => ?_
            split_ifs
            · exact fun h => absurd h (by simp)
            · exact fun _ => ⟨horder, hdepth⟩
        refine hagainst.bind fun e he => ?_
        intro prev' hr
        injection hr with hnone hsome
        injection hsome with hsome
        subst hsome
        exact ⟨rfl, he hnone⟩

theorem blockAdd_advanced (ha : Advanced E s₀ s) {prev : Nat} (nb : NewBlock D)
    (hprev : prev < s.numBlocks) (horder : nb.hdr.shardOrder = protocolInitialShardOrder) :
    Ensures (PutAgrees E.crypto) (blockAdd s prev nb) fun r =>
      Advanced E s₀ r.1 ∧ r.2 < r.1.numBlocks := by
  have hsew : Advanced E s₀ (sewBlock s prev nb) :=
    ⟨ha.ledger.sewBlock hprev horder, ha.later.trans (later_sewBlock _ hprev)⟩
  have hnum := (sewBlock_same s prev nb).1
  have hheads : Frame E (sewBlock s prev nb) (blockAddHeads s prev nb) :=
    (Frame.refl _ _).quiet (blockAddHeads_quiet s prev nb)
  unfold blockAdd
  refine ((checkChains_plain _).agrees E.crypto).bind fun _ _ => ?_
  refine ⟨hsew.frame hheads, ?_⟩
  show s.numBlocks < (blockAddHeads s prev nb).numBlocks
  rw [hheads.numBlocks, hnum]
  omega

omit [Digest D] [DecidableEq D] in
theorem tellComplaint_still (h : Still s₀ s) (peer : Option Peer) (b : Nat) :
    Still s₀ (tellComplaint s peer b) := by
  unfold tellComplaint
  split
  · exact h.emit _
  · exact h

omit [DecidableEq D] in
theorem checkPrevTxhashes_plain (C : Crypto D) (s : State D) (b : Nat) :
    StopsPlainly (checkPrevTxhashes C s b) :=
  checkPrevTxhashesFrom_plain C s b _ 0

omit [DecidableEq D] in
theorem announceBlock_still (C : Crypto D) (h : Still s₀ s) (peer : Option Peer) (b : Nat) :
    Ensures Fault.Plain (announceBlock C s peer b) (Still s₀) := by
  have hsync : ∀ s₁, Still s₀ s₁ → Still s₀ (syncBlockContents s₁ b) := by
    intro s₁ h₁
    refine Still.foldl (fun s₂ i h₂ => ?_) h₁
    split_ifs
    · exact h₂
    · exact h₂.emit _
    · exact h₂.emit _
  have hask : ∀ s₁, Still s₀ s₁ → Still s₀ (askBlockContents s₁ b) := by
    intro s₁ h₁
    refine Still.foldl (fun s₂ i h₂ => ?_) h₁
    split_ifs
    · exact h₂
    · exact h₂.emit _
    · exact h₂
  unfold announceBlock
  refine (checkPrevTxhashes_plain _ _ _).bind fun good _ => ?_
  split_ifs
  · exact h
  · split
    · exact h.emit _
    · split_ifs
      · exact hsync _ (h.emit _)
      · exact hask _ (h.emit _)

theorem recvBlock_advanced (ha : Advanced E s₀ s) (peer : Option Peer) (p : BlockParts D) :
    Ensures (PutAgrees E.crypto) (recvBlock E.crypto s peer p) fun r =>
      Advanced E s₀ r.1 ∧ ∀ b : Nat, r.2.2 = some b → b < r.1.numBlocks := by
  unfold recvBlock
  refine ((checkBlockHeader_spec E.crypto s p).weaken (putAgrees_of_plain E.crypto)).bind
    fun r hr => ?_
  split
  · rename_i prev
    obtain ⟨hfind, horder, -⟩ := hr prev rfl
    have hprev := (blockFindAny_spec hfind).1
    unfold recvGoodBlock
    split_ifs
    · exact ⟨ha, by simp⟩
    · split
      · rename_i b hb
        have hf := (Frame.refl E s).quiet (tellComplaint_still (.refl s) peer b).toQuiet
        refine ⟨ha.frame hf, fun b' hb' => ?_⟩
        obtain rfl : b = b' := Option.some.inj hb'
        rw [show (tellComplaint s peer b).numBlocks = s.numBlocks from hf.numBlocks]
        exact (blockFindAny_spec hb).1
      · refine (blockAdd_advanced ha (p.toNewBlock E.crypto) hprev horder).bind
          fun r h₁ => ?_
        obtain ⟨s₁, b⟩ := r
        dsimp only at h₁ ⊢
        refine ((announceBlock_still E.crypto (.refl s₁) peer b).weaken
          (putAgrees_of_plain E.crypto)).bind fun s₂ h₂ => ?_
        have hf := (Frame.refl E s₁).quiet (tellComplaint_still h₂ peer b).toQuiet
        refine ⟨h₁.1.frame hf, fun b' hb' => ?_⟩
        obtain rfl : b = b' := Option.some.inj hb'
        rw [show (tellComplaint s₂ peer b).numBlocks = s₁.numBlocks from hf.numBlocks]
        exact h₁.2
  · split_ifs
    · exact ⟨ha, by simp⟩
    · unfold seekPredecessor
      refine Ensures.bind (P := Advanced E s₀) ?_ fun s₁ h₁ => ⟨h₁, by simp⟩
      refine ((beatsTarget_plain _ _).agrees E.crypto).bind fun enough _ => ?_
      simp only [ensures_ok]
      split_ifs
      · exact ha.emit _
      · exact ha
    · exact ⟨ha, by simp⟩

theorem recvBlockFromPeer_advanced (ha : Advanced E s₀ s) (peer : Peer) (p : BlockParts D) :
    Ensures (PutAgrees E.crypto) (recvBlockFromPeer E.crypto s peer p) fun r =>
      Advanced E s₀ r.1 := by
  unfold recvBlockFromPeer
  refine (recvBlock_advanced ha _ p).bind fun r hr => ?_
  exact ((stopsPlainly_assert .uninitialised trivial).agrees E.crypto).bind
    fun _ _ => hr.1

theorem recvShards_advanced (pkts : List (PktShard D)) (n : Nat) (ha : Advanced E s₀ s) :
    Ensures (PutAgrees E.crypto) (recvShards E b pkts n s) fun r => Advanced E s₀ r.1 := by
  induction pkts generalizing n s with
  | nil => exact ha
  | cons pkt rest ih =>
    unfold recvShards
    split_ifs
    · exact ih _ ha
    · refine (recvShard_advanced ha none pkt).bind fun r hr => ?_
      obtain ⟨s₁, e⟩ := r
      dsimp only at hr ⊢
      split_ifs
      · exact hr
      · exact ih _ hr

theorem recvBlockFromGenerator_advanced (ha : Advanced E s₀ s) (p : BlockParts D)
    (shards : List (PktShard D)) :
    Ensures (PutAgrees E.crypto) (recvBlockFromGenerator E s p shards) fun r =>
      Advanced E s₀ r.1 := by
  unfold recvBlockFromGenerator
  refine (recvBlock_advanced ha none p).bind fun r hr => ?_
  obtain ⟨s₁, e, b⟩ := r
  dsimp only at hr ⊢
  split_ifs
  · exact hr.1
  · refine ((stopsPlainly_deref b).agrees E.crypto).bind fun b _ => ?_
    refine (recvShards_advanced shards 0 hr.1).bind fun r hr => ?_
    obtain ⟨s₂, good⟩ := r
    dsimp only at hr ⊢
    split_ifs
    · exact hr
    · exact (hr.ensures (g := id) (recheckPendingTxs_frame (Frame.refl E s₂))).bind
        fun _ h => h

-- ---------------------------------------------------------------------------
-- Complaints
-- ---------------------------------------------------------------------------

theorem runVerdict_frame (h : Frame E s₀ s) (peer : Peer) (complaint : Complaint D)
    (verdict : Verdict D) :
    Ensures Fault.Plain (runVerdict E s peer complaint verdict) fun r => Frame E s₀ r.1 := by
  cases verdict with
  | refuse e => exact h
  | askFor block => exact h.emit _
  | publish b => exact (publishComplaint_frame h b _ _).bind fun _ hs => hs

theorem complainInBlocks_frame {complain : State D → BlockId → ProvenTx D → Res (State D)}
    (hc : ∀ s b t, Frame E s₀ s → Ensures Fault.Plain (complain s b t) (Frame E s₀))
    (tx : Tx D) (elems : List (TxhashElem D)) (h : Frame E s₀ s) :
    Ensures Fault.Plain (complainInBlocks E.crypto complain tx elems s) (Frame E s₀) := by
  induction elems generalizing s with
  | nil => exact h
  | cons te rest ih =>
    rw [complainInBlocks]
    split
    · exact ih h
    · split_ifs
      · refine (createProof_plain _ _ _ _ _).bind fun _ _ => ?_
        refine (stopsPlainly_deref _).bind fun _ _ => ?_
        exact (hc s _ _ h).bind fun s₁ h₁ => ih h₁
      · exact ih h

theorem recvTxBadInput_frame (h : Frame E s₀ s) (inputnum : Nat) (tx inTx : Tx D) :
    Ensures Fault.Plain (recvTxBadInput E s inputnum tx inTx) fun r => Frame E s₀ r.1 := by
  unfold recvTxBadInput
  dsimp only
  split_ifs
  · exact h
  · exact h
  · split
    · exact h
    · exact h
    · refine (complainInBlocks_frame (fun s b t hs => complainBadInput_frame hs b t _ _) tx _
        h).bind fun s₁ h₁ => ?_
      exact (dropPendingTx_frame h₁ tx).bind fun _ hs => hs

theorem recvTxBadAmount_frame (h : Frame E s₀ s) (tx : Tx D) (inputs : List (Tx D)) :
    Ensures Fault.Plain (recvTxBadAmount E s tx inputs) fun r => Frame E s₀ r.1 := by
  unfold recvTxBadAmount
  dsimp only
  split_ifs
  · exact h
  · exact h
  · have hunset : ∀ (s : State D) (b : Nat) (t : ProvenTx D), Frame E s₀ s →
        Ensures Fault.Plain (.error .uninitialised : Res (State D)) (Frame E s₀) :=
      fun _ _ _ _ => trivial
    refine (complainInBlocks_frame hunset tx _ h).bind fun s₁ h₁ => ?_
    exact (dropPendingTx_frame h₁ tx).bind fun _ hs => hs

theorem doublespendCall_plain (C : Crypto D) (s : State D) (pkt : PktTxDoublespend D) :
    StopsPlainly (doublespendCall C s pkt) := by
  unfold doublespendCall spendOf
  split
  · trivial
  · refine Ensures.bind (P := fun _ => True) ?_ fun _ _ => ?_
    · exact (createProof_plain _ _ _ _ _).bind fun _ _ => trivial
    · refine Ensures.bind (P := fun _ => True) ?_ fun _ _ => trivial
      exact (createProof_plain _ _ _ _ _).bind fun _ _ => trivial

theorem complainDoublespends_frame (pkt : PktTxDoublespend D) (fuel : Nat) (h : Frame E s₀ s) :
    Ensures Fault.Elsewhere (complainDoublespends E pkt fuel s) (Frame E s₀) := by
  induction fuel generalizing s with
  | zero => exact id
  | succ fuel ih =>
    unfold complainDoublespends
    refine ((doublespendCall_plain _ _ _).weaken Fault.Plain.elsewhere).bind fun call _ => ?_
    split
    · exact h
    · exact ((complainDoublespend_frame h _ _).weaken Fault.Plain.elsewhere).bind fun s₁ h₁ => ih h₁

theorem dropBoth_frame (h : Frame E s₀ s) (pkt : PktTxDoublespend D) :
    Ensures Fault.Plain (dropBoth E s pkt) (Frame E s₀) := by
  unfold dropBoth
  exact (dropPendingTx_frame h _).bind fun s₁ h₁ => dropPendingTx_frame h₁ _

theorem recvTxDoublespend_frame (h : Frame E s₀ s) (pkt : PktTxDoublespend D) :
    Ensures Fault.Elsewhere (recvTxDoublespend E s pkt) fun r => Frame E s₀ r.1 := by
  unfold recvTxDoublespend
  dsimp only
  split_ifs
  · exact h
  · refine ((dropBoth_frame h pkt).weaken Fault.Plain.elsewhere).bind fun s₁ h₁ => ?_
    exact (complainDoublespends_frame pkt _ h₁).bind fun _ hs => hs

theorem complainClaimVerdict_plain (C : Crypto D) (s : State D) (claim reward : ProvenTx D)
    (claimB rewardB : Except Ecode BlockId) :
    StopsPlainly (complainClaimVerdict C s claim reward claimB rewardB) := by
  unfold complainClaimVerdict
  split
  · split
    · split_ifs
      · trivial
      · unfold claimIsValid
        refine Ensures.bind (P := fun _ => True) ?_ fun _ _ => ?_
        · exact (checkClaimInput_plain _ _ _ _ _ _ _ _ _).bind fun _ _ => trivial
        · simp only [ensures_ok]
    · trivial
  · trivial
  · trivial

-- ---------------------------------------------------------------------------
-- The node
-- ---------------------------------------------------------------------------

theorem recvPacket_advanced (ha : Advanced E s₀ s) (peer : Peer) (pkt : Packet D) :
    Ensures (PutAgrees E.crypto) (recvPacket E s peer pkt) fun r => Advanced E s₀ r.1 := by
  have hrefl := Frame.refl E s
  unfold recvPacket
  dsimp only
  cases pkt with
  | block p => exact recvBlockFromPeer_advanced ha peer p
  | tx tx => exact recvTx_advanced ha peer tx
  | hashesInBlock pkt => exact recvHashesInBlock_advanced ha peer pkt
  | shard pkt => exact recvShard_advanced ha (some peer) pkt
  | txInBlock t => exact recvTxInBlock_advanced ha (some peer) t
  | txBadInput inputnum tx inTx => exact ha.ensures (recvTxBadInput_frame hrefl inputnum tx inTx)
  | txBadAmount tx inputs => exact ha.ensures (recvTxBadAmount_frame hrefl tx inputs)
  | txDoublespend pkt =>
    exact ((recvTxDoublespend_frame hrefl pkt).mono fun _ hf => ha.frame hf).weaken
      (putAgrees_of_elsewhere _)
  | complainTxMisorder t1 t2 => exact ha.ensures (runVerdict_frame hrefl peer _ _)
  | complainTxInvalid error proof tx refs => exact ha.ensures (runVerdict_frame hrefl peer _ _)
  | complainTxBadInput inputnum t inTx => exact ha.ensures (runVerdict_frame hrefl peer _ _)
  | complainTxBadAmount t inputs => exact ha.ensures (runVerdict_frame hrefl peer _ _)
  | complainDoublespend input1 input2 t1 t2 =>
    exact ha.ensures (runVerdict_frame hrefl peer _ _)
  | complainBadInputRef inputnum t input => exact ha.ensures (runVerdict_frame hrefl peer _ _)
  | complainClaimInputInvalid claim reward =>
    refine ((complainClaimVerdict_plain _ _ _ _ _ _).agrees E.crypto).bind fun verdict _ => ?_
    exact ha.ensures (runVerdict_frame hrefl peer _ _)

theorem pktIn_advanced (ha : Advanced E s₀ s) (peer : Peer) (pkt : Packet D) :
    Ensures (PutAgrees E.crypto) (pktIn E s peer pkt) fun r => Advanced E s₀ r.1 := by
  unfold pktIn
  refine (recvPacket_advanced ha peer pkt).bind fun r hr => ?_
  obtain ⟨s₁, e⟩ := r
  dsimp only at hr ⊢
  split_ifs
  · exact hr
  · exact (hr.ensures (g := id) (recheckPendingTxs_frame (Frame.refl E s₁))).bind fun _ h => h

theorem sendrawtransaction_advanced (ha : Advanced E s₀ s) (tx : Tx D) :
    Ensures (PutAgrees E.crypto) (sendrawtransaction E s tx) fun r => Advanced E s₀ r.1 := by
  unfold sendrawtransaction
  split_ifs with hcheck
  · exact ha
  · rw [not_not] at hcheck
    have hfine : Fine E s tx := Or.inr (txOk_of_checkTx_none hcheck)
    refine (ha.ensures (addPendingTx_frame (Frame.refl E s) hfine)).bind fun r h₁ => ?_
    obtain ⟨s₁, r⟩ := r
    dsimp only at h₁ ⊢
    split
    · exact h₁.emit _
    · refine ((stopsPlainly_deref _).agrees E.crypto).bind fun _ _ => ?_
      exact (h₁.emit _).emit _
    · exact h₁

/-- Whatever happens, the node's knowledge of the blocks stays right and grows. -/
theorem nodeStep_advanced (ha : Advanced E s₀ s) (event : NodeEvent D) :
    Ensures (PutAgrees E.crypto) (nodeStep E s event) (Advanced E s₀) := by
  cases event with
  | packet peer pkt => exact (pktIn_advanced ha peer pkt).bind fun _ h => h
  | generator p shards => exact (recvBlockFromGenerator_advanced ha p shards).bind fun _ h => h
  | sendrawtransaction tx => exact (sendrawtransaction_advanced ha tx).bind fun _ h => h
  | clock now => exact ha.frame ((Frame.refl E s).congr rfl rfl rfl rfl)

/-- The ledger of a node that knows the genesis block only. -/
theorem ledgerOk_startNode (sha merkle : D) (nonce2 : Bytes 13) (tailer : BlockTailer)
    (now : UInt32) (opts : FeeOptions) :
    LedgerOk E (startNode (genesisBlock sha merkle nonce2 tailer) now opts) := by
  have hentry : ∀ b shardnum txoff, entryAt E.crypto
      (startNode (genesisBlock sha merkle nonce2 tailer) now opts) b shardnum txoff = none :=
    fun _ _ _ => rfl
  have hsize : ∀ shardnum : Nat, ((List.replicate 4 (0 : UInt8))[shardnum]?.getD 0).toNat = 0 := by
    intro shardnum
    rw [List.getElem?_replicate]
    split_ifs <;> rfl
  refine ⟨⟨?_, fun _ _ => rfl, fun _ _ => rfl, ?_, ?_, ?_, ?_, fun _ => rfl⟩, ?_⟩
  · intro b shardnum
    exact (hsize shardnum).symm
  · intro b shardnum txoff h hknown
    rw [hentry] at hknown
    exact absurd hknown (by simp)
  · exact fun te hte => absurd hte List.not_mem_nil
  · exact fun te hte => absurd hte List.not_mem_nil
  · rintro tx (⟨b, shardnum, txoff, refs, hslot⟩ | ⟨shard, p, hp, -⟩ | hun | ⟨te, hte, -⟩)
    · exact absurd hslot (by simp [State.shardOf, startNode, newState, genesisBlock,
        newBlockShard])
    · exact absurd hp List.not_mem_nil
    · exact absurd hun List.not_mem_nil
    · exact absurd hte List.not_mem_nil
  · intro b shardnum txoff h hknown
    rw [hentry] at hknown
    exact absurd hknown (by simp)

/-- **The ledger of a running node.** -/
theorem ledgerOk_of_nodeReach (h : NodeReach E s) : LedgerOk E s := by
  induction h with
  | start sha merkle nonce2 tailer now opts => exact ledgerOk_startNode sha merkle nonce2 tailer now opts
  | step event _ hstep ih => exact ((nodeStep_advanced ih.advanced event).of_ok hstep).ledger

/-- **What a proof binds.** When the double hash has no collisions, an accepted
proof is for the entry of the committed list at its offset, a shard with any
mixture of transactions and hashes has the root of the list, and whatever
arrives in whatever order, what is put in a place is what is there. -/
theorem proofs_bind_positions (hC : Function.Injective E.crypto.doubleSha) :
    (∀ (blk : Block D) (hashes : List (TxRefHash D)) (proof : Proof D) (h : TxRefHash D) (m : D),
      hashes.length = blk.shardSize proof.pos.shard.toNat →
      merkleHashes E.crypto hashes 0 hashes.length = .ok m →
      blk.merkles[proof.pos.shard.toNat]? = some m →
      checkProofByhash E.crypto proof blk h = true →
      hashes[proof.pos.txoff.toNat]? = some h) ∧
    (∀ (shard : BlockShard D) (hashes : List (TxRefHash D)),
      hashes.length = shard.size →
      (∀ n < shard.size, txrefhashInShard E.crypto shard n = hashes[n]?) →
      merkleTxs E.crypto shard = merkleHashes E.crypto hashes 0 hashes.length) ∧
    (∀ (s : State D) (event : NodeEvent D) (e : Fault), NodeReach E s →
      nodeStep E s event = .error e → ¬ e.PutDiffers) := by
  refine ⟨?_, ?_, ?_⟩
  · intro blk hashes proof h m hlen hroot hm hcheck
    refine checkProofByhash_pins hC hlen (fun m' hm' => ?_) hcheck
    rw [hm] at hm'
    rw [hroot, Option.some.inj hm']
  · intro shard hashes hsize hentries
    exact merkleTxs_eq_merkleHashes hsize hentries
  · intro s event e hreach hstep
    exact (nodeStep_advanced (ledgerOk_of_nodeReach hreach).advanced event).of_error hstep hC

/-- The entries of `threeHashes` as a list. -/
def threeEntries : List (TxRefHash IdealDigest) :=
  [⟨.hash [0], .hash []⟩, ⟨.hash [1], .hash []⟩, ⟨.hash [2], .hash []⟩]

theorem threeHashes_entries :
    ∀ n < threeHashes.size, txrefhashInShard idealCrypto threeHashes n = threeEntries[n]? := by
  intro n hn
  have hn' : n < 3 := hn
  have hcases : n = 0 ∨ n = 1 ∨ n = 2 := by omega
  rcases hcases with rfl | rfl | rfl <;> rfl

/-- A block of a version the node does not know. -/
def oddVersion : BlockParts IdealDigest where
  hdr := { idealGenesis.hdr with version := 0 }
  shardNums := List.replicate 4 0
  merkles := List.replicate 4 .zero
  prevTxhashes := []
  tailer := ⟨0, 0, 0⟩
  shardNums_length := rfl
  merkles_length := rfl
  prevTxhashes_length := rfl

/-- The proof at offset 1 of the shard of three hashes is accepted for the entry
there; the shard has the root of the list; a fault of the node is another one. -/
theorem proofs_bind_positions_three :
    threeEntries[1]? = some ⟨.hash [1], .hash []⟩ ∧
    merkleTxs idealCrypto threeHashes = merkleHashes idealCrypto threeEntries 0 3 ∧
    nodeStep idealEnv (startNode idealGenesis 0 ⟨false, false⟩)
      (.packet ⟨0, false⟩ (.block oddVersion)) = .error .uninitialised ∧
    ¬ Fault.PutDiffers .uninitialised := by
  have hsize : threeEntries.length = threeHashes.size := rfl
  have hbind := proofs_bind_positions (E := idealEnv) idealCrypto_injective
  have hstep : nodeStep idealEnv (startNode idealGenesis 0 ⟨false, false⟩)
      (.packet ⟨0, false⟩ (.block oddVersion)) = .error .uninitialised := rfl
  obtain ⟨proof, hproof, -, hcheck⟩ := proofAccepted_of_startsAgree threeHashesState_committed
    rfl (by decide : 1 < 3) (startsAgree_of_lt_two (by omega))
  have hbuilt : createProof idealCrypto threeHashesState 0 0 1
      = .ok (builtProof idealCrypto threeHashesState 0 0 1) :=
    createProof_eq_builtProof rfl rfl threeHashes_filled
  rw [hbuilt] at hproof
  injection hproof with hproof
  subst hproof
  refine ⟨?_, hbind.2.1 threeHashes threeEntries hsize threeHashes_entries, hstep, ?_⟩
  · refine hbind.1 (threeHashesState.blk 0) threeEntries
      (builtProof idealCrypto threeHashesState 0 0 1) _ _ rfl
      (merkleHashes_eq_entriesRoot _ _) ?_ (hcheck _ rfl)
    rw [← shardEntry_eq_getElem? hsize threeHashes_entries]
    rfl
  · exact hbind.2.2 _ _ _ (.start _ _ _ _ _ _) hstep

-- ---------------------------------------------------------------------------
-- A small chain
-- ---------------------------------------------------------------------------

/-- A run from a reachable state. -/
theorem NodeReach.run (hreach : NodeReach E s) {events : List (NodeEvent D)}
    (h : nodeRun E s events = .ok s') : NodeReach E s' :=
  foldlM_preserves (fun _ _ event _ hs hstep => .step event hs hstep) hreach h

/-- What a shard holds: transactions with their refs. -/
abbrev Contents (D : Type) := List (Tx D × List InputRef)

/-- The entries of a shard that holds these. -/
def entriesOf (C : Crypto D) (txs : Contents D) : List (TxRefHash D) :=
  txs.map fun t => hashTxAndRefs C t.1 t.2

/-- The root over them. -/
def rootOf (C : Crypto D) (txs : Contents D) : D :=
  entriesRoot C fun n => (entriesOf C txs)[n]?

/-- The proof of the entry at `txoff`, for a block of this hash. -/
def proofOf (C : Crypto D) (sha : D) (shard : UInt16) (txs : Contents D) (txoff : Nat) : Proof D :=
  { pos := { block := sha, shard := shard, txoff := UInt8.ofNat txoff, unused := 0 }
    merkle := fun i => MerkleTree.root (merkleTwoHashes C)
      (paddedLeaf C fun n => (entriesOf C txs)[n]?) i (MerkleTree.siblingStart txoff i) }

/-- A key, and the address it has under `idealCrypto`. -/
def sampleKey (n : UInt8) : Pubkey := ⟨n :: List.replicate 32 0, rfl⟩

/-- A gateway pays 100 to the first key. -/
def samplePayment : Tx IdealDigest :=
  .fromGateway
    { version := 1, paysFee := false, features := 0, gatewayKey := sampleKey 9, unused := 0
      signature := ⟨Bytes.zero 32, Bytes.zero 32⟩
      outputs := [⟨100, idealCrypto.pubkeyToAddr (sampleKey 1)⟩], numOutputs_lt := by decide }

/-- The first key sends `send` to the second, and keeps the change. -/
def sampleSpend (send change : UInt32) (inputs : List (Input IdealDigest))
    (h : inputs.length < 2 ^ 32) : Tx IdealDigest :=
  .normal
    { version := 1, paysFee := false, features := 0, inputKey := sampleKey 1
      outputAddr := idealCrypto.pubkeyToAddr (sampleKey 2), sendAmount := send
      changeAmount := change, signature := ⟨Bytes.zero 32, Bytes.zero 32⟩, inputs := inputs
      numInputs_lt := h }

/-- The input that names the payment. -/
def samplePaid : Input IdealDigest := ⟨hashTx idealCrypto samplePayment, 0, 0⟩

/-- A block that holds these transactions in its first shard. -/
def sampleBlock (prev : IdealDigest) (depth numPrev : UInt32) (txs : Contents IdealDigest) :
    BlockParts IdealDigest where
  hdr := { idealGenesis.hdr with prevBlock := prev, numPrevTxhashes := numPrev, depth := depth }
  shardNums := [UInt8.ofNat txs.length, 0, 0, 0]
  merkles := [rootOf idealCrypto txs, rootOf idealCrypto [], rootOf idealCrypto [],
    rootOf idealCrypto []]
  prevTxhashes := List.replicate numPrev.toNat 0
  tailer := ⟨depth * 10, 0x1effffff, 0⟩
  shardNums_length := rfl
  merkles_length := rfl
  prevTxhashes_length := List.length_replicate

/-- The first block holds the payment. -/
def sampleFirst : BlockParts IdealDigest := sampleBlock .zero 1 4 [(samplePayment, [])]

/-- The packet that brings a transaction of a block. -/
def samplePacket (block : BlockParts IdealDigest) (txs : Contents IdealDigest) (txoff : Nat)
    (t : Tx IdealDigest × List InputRef) : NodeEvent IdealDigest :=
  .packet ⟨0, false⟩ (.txInBlock
    ⟨proofOf idealCrypto (hashBlock idealCrypto block) 0 txs txoff, t.1, t.2⟩)

/-- The header of a block. -/
def sampleHeader (block : BlockParts IdealDigest) : NodeEvent IdealDigest :=
  .packet ⟨0, false⟩ (.block block)

/-- The node that hears of all this. -/
def sampleNode : State IdealDigest := startNode idealGenesis 1000 ⟨false, false⟩

theorem nodeReach_sampleNode : NodeReach idealEnv sampleNode := .start _ _ _ _ _ _

end Pettycoin
