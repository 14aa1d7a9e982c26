import Pettycoin.Steps

/-!
# Pettycoin — the trails of the handlers

The handlers of `recv_block.c`, `peer.c` and `recv_complain.c`, one after the
other, and from them what a node does with an event (`nodeStep_trail`).

* `recvBlock_moves`, `runVerdict_moves` — a block comes in, a complaint comes in;
* `complainTxMisorder_founded` — the block of a complaint is one that something is
  proven to be in;
* `nodeStep_moves`, `nodeStep_trail` — any event, as operations and as steps.
-/

namespace Pettycoin

open ExceptRules Relation

/-- What packets bring: which entry is at which place of which block. -/
abbrev Brought (D : Type) := Nat → Nat → Nat → TxRefHash D → Prop

variable {D : Type} [Digest D] [DecidableEq D] {E : Env D} {g : Slot D → Prop}
  {I : State D → Prop} {B : Brought D} {s₀ s s' : State D} {b shardnum txoff : Nat}

-- ---------------------------------------------------------------------------
-- Operations
-- ---------------------------------------------------------------------------

/-- Where a transaction comes from that is put into a slot, and that it keeps the order: the slot
holds its hash, and the refs were made for it, or a packet brings it with refs that pass. -/
structure Placed (E : Env D) (B : Brought D) (s : State D) (b shardnum txoff : Nat) (tx : Tx D)
    (refs : List InputRef) : Prop where
  order : checkTxOrdering E (s.shardOf b shardnum) txoff tx = none
  origin : (s.shardOf b shardnum).u txoff = .hash (hashTxAndRefs E.crypto tx refs) ∧
      createRefs s b tx 0 = some refs ∨
    B b shardnum txoff (hashTxAndRefs E.crypto tx refs) ∧
      checkRefs s b refs = .none ∧ refs.length = numInputs tx

/-- Every operation of the node keeps the property, where packets bring `B`. -/
structure Kept (E : Env D) (g : Slot D → Prop) (B : Brought D) (I : State D → Prop) : Prop
    extends Steady E I where
  recheckPending : ∀ {s s' : State D}, Ledger E s → recheckPendingTxs E s = .ok s' → I s → I s'
  addPending : ∀ {s : State D} {tx : Tx D} {r : State D × AddPending}, Ledger E s →
    TxOk E.crypto tx → addPendingTx E s tx = .ok r → I s → I r.1
  dropPending : ∀ {s s' : State D} {tx : Tx D}, Ledger E s → dropPendingTx E s tx = .ok s' →
    I s → I s'
  putTx : ∀ {s s' : State D} {source : Option Nat} {b shardnum txoff : Nat} {tx : Tx D}
    {refs : List InputRef}, Ledger E s → b < s.numBlocks →
    Proven E.crypto (s.blk b) shardnum txoff (hashTxAndRefs E.crypto tx refs) →
    TxOk E.crypto tx → FillsOr g s b shardnum txoff → Placed E B s b shardnum txoff tx refs →
    putTxInShard E s source b shardnum txoff tx refs = .ok s' → I s → I s'
  putTxhash : ∀ {s : State D} {b shardnum txoff : Nat} {h : TxRefHash D} {r : State D × Bool},
    Ledger E s → b < s.numBlocks → Proven E.crypto (s.blk b) shardnum txoff h →
    B b shardnum txoff h →
    (g .unknown → (s.shardOf b shardnum).u txoff = .unknown → (s.blk b).complaint = none) →
    putTxhashInShard E s b shardnum txoff h = .ok r → I s → I r.1
  putProof : ∀ {s : State D} {b : Nat} {proof : Proof D} {h : TxRefHash D}, Ledger E s →
    b < s.numBlocks → checkProofByhash E.crypto proof (s.blk b) h = true → I s →
      I (putProofInShard s b proof)
  addBlock : ∀ {s : State D} {prev : BlockId} {nb : NewBlock D} {r : State D × BlockId},
    Ledger E s → Addable s prev nb → (∃ p : BlockParts D, nb = p.toNewBlock E.crypto) →
    blockAdd s prev nb = .ok r → I s → I r.1

theorem kept_true (E : Env D) (g : Slot D → Prop) (B : Brought D) : Kept E g B fun _ => True where
  toSteady := steady_true E
  recheckPending := fun _ _ => id
  addPending := fun _ _ _ => id
  dropPending := fun _ _ => id
  putTx := fun _ _ _ _ _ _ _ => id
  putTxhash := fun _ _ _ _ _ _ => id
  putProof := fun _ _ _ => id
  addBlock := fun _ _ _ _ => id

section

variable {tx : Tx D} {refs : List InputRef}

theorem recheckPendingTxs_moves (hK : Kept E g B I) (hl : Ledger E s₀) (ht : Moves E g I s₀ s) :
    Ensures Fault.Plain (recheckPendingTxs E s) (Moves E g I s₀) :=
  ht.of_trail (f := id) (recheckPendingTxs_trail ht.trail) fun _ =>
    hK.recheckPending (ht.ledger hl).1

theorem dropPendingTx_moves (hK : Kept E g B I) (hl : Ledger E s₀) (ht : Moves E g I s₀ s)
    (tx : Tx D) : Ensures Fault.Plain (dropPendingTx E s tx) (Moves E g I s₀) :=
  ht.of_trail (f := id) (dropPendingTx_trail ht.trail tx) fun _ =>
    hK.dropPending (ht.ledger hl).1

theorem addPendingTx_moves (hK : Kept E g B I) (hl : Ledger E s₀) (ht : Moves E g I s₀ s)
    (hok : TxOk E.crypto tx) :
    Ensures Fault.Plain (addPendingTx E s tx) fun r => Moves E g I s₀ r.1 :=
  ht.of_trail (addPendingTx_trail ht.trail hok) fun _ => hK.addPending (ht.ledger hl).1 hok

theorem putTxInShard_moves (hK : Kept E g B I) (hl : Ledger E s₀) (ht : Moves E g I s₀ s)
    (source : Option Nat) (hb : b < s.numBlocks)
    (hproven : Proven E.crypto (s.blk b) shardnum txoff (hashTxAndRefs E.crypto tx refs))
    (hok : TxOk E.crypto tx) (hg : FillsOr g s b shardnum txoff)
    (hplaced : Placed E B s b shardnum txoff tx refs) :
    Ensures (Stopped E g s₀) (putTxInShard E s source b shardnum txoff tx refs)
      (Moves E g I s₀) :=
  ht.of_trail (f := id) (putTxInShard_trail hl ht.trail source hb hproven hok hg) fun _ =>
    hK.putTx (ht.ledger hl).1 hb hproven hok hg hplaced

theorem putTxhashInShard_moves (hK : Kept E g B I) (hl : Ledger E s₀) {h : TxRefHash D}
    (ht : Moves E g I s₀ s) (hb : b < s.numBlocks)
    (hproven : Proven E.crypto (s.blk b) shardnum txoff h)
    (hB : B b shardnum txoff h)
    (hg : g .unknown → (s.shardOf b shardnum).u txoff = .unknown → (s.blk b).complaint = none) :
    Ensures (Stopped E g s₀) (putTxhashInShard E s b shardnum txoff h) fun r =>
      Moves E g I s₀ r.1 ∧ (r.1.blk b).complaint = (s.blk b).complaint ∧
        (r.2 = true → Named r.1 b shardnum txoff) :=
  (putTxhashInShard_trail ht.trail hb hproven hg).mono_ok fun _ hr h =>
    ⟨⟨h.1, fun hi => hK.putTxhash (ht.ledger hl).1 hb hproven hB hg hr (ht.keeps hi)⟩, h.2⟩

end

theorem putProofInShard_moves (hK : Kept E g B I) (hl : Ledger E s₀) {proof : Proof D}
    {h : TxRefHash D} (ht : Moves E g I s₀ s) (hb : b < s.numBlocks)
    (haccepted : checkProofByhash E.crypto proof (s.blk b) h = true) :
    Moves E g I s₀ (putProofInShard s b proof) := by
  refine ⟨?_, fun hi => hK.putProof (ht.ledger hl).1 hb haccepted (ht.keeps hi)⟩
  unfold putProofInShard
  dsimp only
  split_ifs
  · exact ht.trail
  · exact ht.trail.tail (.storeProofs b _ fun shard => (shard.addProof proof).proof)

omit [Digest D] [DecidableEq D] in
/-- Storing a proof changes nothing else. -/
theorem putProofInShard_fields (s : State D) (b : Nat) (proof : Proof D) :
    (putProofInShard s b proof).numBlocks = s.numBlocks ∧
      (putProofInShard s b proof).txhash = s.txhash ∧
      (∀ x : Nat, ∃ shard, (putProofInShard s b proof).blk x = { s.blk x with shard := shard }) ∧
      ∀ i j, ((putProofInShard s b proof).shardOf b i).u j = (s.shardOf b i).u j := by
  unfold putProofInShard
  dsimp only
  split_ifs
  · exact ⟨rfl, rfl, fun x => ⟨_, rfl⟩, fun _ _ => rfl⟩
  · refine ⟨rfl, rfl, fun x => ⟨_, blk_modShard _ x⟩, fun i j => ?_⟩
    by_cases hi : i = proof.pos.shard.toNat
    · subst hi
      rw [shardOf_modShard]
      rfl
    · rw [shardOf_modShard_ne fun h => hi h.2]

omit [Digest D] [DecidableEq D] in
theorem putProofInShard_counts (s : State D) (b : Nat) (proof : Proof D) (i : Nat) :
    ((putProofInShard s b proof).shardOf b i).txcount = (s.shardOf b i).txcount ∧
      ((putProofInShard s b proof).shardOf b i).size = (s.shardOf b i).size := by
  unfold putProofInShard
  dsimp only
  split_ifs
  · exact ⟨rfl, rfl⟩
  · by_cases hi : i = proof.pos.shard.toNat
    · subst hi
      rw [shardOf_modShard]
      exact ⟨rfl, rfl⟩
    · rw [shardOf_modShard_ne fun h => hi h.2]
      exact ⟨rfl, rfl⟩

omit [DecidableEq D] in
/-- The order only depends on the slots and the counts. -/
theorem checkTxOrdering_congr {shard shard' : BlockShard D} (hu : ∀ j, shard'.u j = shard.u j)
    (hcount : shard'.txcount = shard.txcount) (hsize : shard'.size = shard.size) {tx : Tx D} :
    checkTxOrdering E shard' txoff tx = checkTxOrdering E shard txoff tx := by
  have hfor : txFor shard' = txFor shard := by
    funext i
    unfold txFor
    rw [hu i]
  unfold checkTxOrdering nearestTx
  rw [hfor, hcount, hsize]

omit [Digest D] [DecidableEq D] in
/-- Whether refs pass is decided by the headers. -/
theorem checkRefs_header (hsame : ∀ x, (s'.blk x).header = (s.blk x).header) (b : Nat)
    (refs : List InputRef) : checkRefs s' b refs = checkRefs s b refs := by
  have hanc : ∀ n x, blockAncestor s' x n = blockAncestor s x n := by
    intro n
    induction n with
    | zero => exact fun x => rfl
    | succ n ih =>
      intro x
      have hprev : (s'.blk x).prev = (s.blk x).prev := (congrArg Block.prev (hsame x) :)
      unfold blockAncestor
      rw [hprev]
      cases (s.blk x).prev with
      | none => rfl
      | some p => exact ih p
  have htime : ∀ x, (s'.blk x).tailer = (s.blk x).tailer := fun x =>
    (congrArg Block.tailer (hsame x) :)
  have hshards : ∀ x, (s'.blk x).numShards = (s.blk x).numShards := fun x =>
    (congrArg Block.numShards (hsame x) :)
  have hsizes : ∀ x i, (s'.blk x).shardSize i = (s.blk x).shardSize i := fun x i =>
    (congrArg (Block.shardSize · i) (hsame x) :)
  unfold checkRefs
  congr 3
  funext ref
  unfold checkRef
  rw [hanc]
  cases blockAncestor s b ref.blocksAgo.toNat with
  | none => rfl
  | some x =>
    dsimp only
    rw [htime, htime, hshards, hsizes]

-- ---------------------------------------------------------------------------
-- Resolving hashes
-- ---------------------------------------------------------------------------

omit [Digest D] in
/-- The refs of a transaction that is found are those made for it. -/
theorem createRefs_of_findTxWithRef {h : TxRefHash D} {tx : Tx D} {refs : List InputRef}
    (hfind : findTxWithRef E s b h = some (tx, refs)) : createRefs s b tx 0 = some refs := by
  unfold findTxWithRef at hfind
  obtain ⟨te, -, hte⟩ := List.exists_of_findSome?_eq_some hfind
  obtain ⟨tx', -, hte⟩ := Option.bind_eq_some_iff.mp hte
  obtain ⟨refs', hrefs, hte⟩ := Option.bind_eq_some_iff.mp hte
  split_ifs at hte
  obtain ⟨rfl, rfl⟩ := Prod.mk.inj (Option.some.inj hte)
  exact hrefs

theorem tryResolveHash_moves (hK : Kept E g B I) (hl : Ledger E s₀) (ht : Moves E g I s₀ s)
    (source : Option Nat)
    (hb : b < s.numBlocks) (hg : (s.blk b).complaint = none ∨ Named s b shardnum txoff) :
    Ensures (Stopped E g s₀) (tryResolveHash E s source b shardnum txoff) fun r =>
      Moves E g I s₀ r.1 ∧ s.numBlocks ≤ r.1.numBlocks := by
  have hls := (ht.ledger hl).1
  unfold tryResolveHash
  split
  · rename_i h hu
    have hproven := hls.proven b shardnum txoff h (entryAt_hash hu)
    have hprovable : Provable E.crypto s b := ⟨hb, shardnum, txoff, h, hproven⟩
    -- what follows from here on is a trail of its own, from `s`
    have hnum : ∀ s', Moves E g I s s' → Moves E g I s₀ s' ∧ s.numBlocks ≤ s'.numBlocks :=
      fun s' h' => ⟨ht.trans h', (h'.ledger hls).2.numBlocks⟩
    split
    · exact ⟨ht, Nat.le_refl _⟩
    · rename_i tx refs hfind
      obtain ⟨hhash, hok⟩ := findTxWithRef_spec hls hfind
      have hrefs := createRefs_of_findTxWithRef hfind
      split
      · refine ((createProof_plain _ _ _ _ _).stopped g s₀).bind fun proof _ => ?_
        refine ((complainMisorder_moves hK.toSteady hls (.refl _) hprovable _ _).weaken fun _ => .plain).bind
          fun s₁ h₁ => hnum s₁ h₁
      · rename_i horder
        rw [← hhash] at hproven
        refine ((putTxInShard_moves hK hls (.refl _) source hb hproven hok ?_
          ⟨horder, .inl ⟨hhash ▸ hu, hrefs⟩⟩).weaken (Stopped.after ht.trail)).bind
          fun s₁ h₁ => hnum s₁ h₁
        unfold FillsOr
        rw [hu]
        exact fun _ => hg.imp_right fun hn => ⟨rfl, hn⟩
  · exact .plain trivial

theorem tryResolveHashes_moves (hK : Kept E g B I) (hl : Ledger E s₀) (source : Option Nat)
    (addTodos : Bool)
    (l : List Nat) (ht : Moves E g I s₀ s) (hb : b < s.numBlocks) :
    Ensures (Stopped E g s₀) (tryResolveHashes E source b shardnum addTodos l s)
      (Moves E g I s₀) := by
  induction l generalizing s with
  | nil => exact ht
  | cons i rest ih =>
    unfold tryResolveHashes
    split_ifs with hc
    · exact ht
    · exact ih ht hb
    · refine (tryResolveHash_moves hK hl ht source hb (.inl (by simpa using hc))).bind fun r hr => ?_
      obtain ⟨s₁, resolved⟩ := r
      dsimp only at hr ⊢
      split_ifs
      · exact ih (hr.1.emit hK.toSteady _) (hb.trans_le hr.2)
      · exact ih hr.1 (hb.trans_le hr.2)

theorem resolveHashesOf_moves (hK : Kept E g B I) (hl : Ledger E s₀) (source : Option Nat)
    (elems : List (TxhashElem D)) (ht : Moves E g I s₀ s) :
    Ensures (Stopped E g s₀) (resolveHashesOf E source elems s) (Moves E g I s₀) := by
  induction elems generalizing s with
  | nil => exact ht
  | cons te rest ih =>
    unfold resolveHashesOf
    split
    · exact ih ht
    · rename_i y i j hloc
      split_ifs with hthere
      · simp only [Bool.and_eq_true, decide_eq_true_eq] at hthere
        have hnamed : Named s y i j := ⟨te, hthere.1, hloc⟩
        exact (tryResolveHash_moves hK hl ht source ((ht.ledger hl).1.provable hnamed).1
          (.inr hnamed)).bind fun r hr => ih hr.1
      · exact ih ht

-- ---------------------------------------------------------------------------
-- Handlers
-- ---------------------------------------------------------------------------

theorem putTxhashesInShard_moves (hK : Kept E g B I) (hl : Ledger E s₀)
    (hashes : List (TxRefHash D)) (n : Nat)
    (ht : Moves E g I s₀ s) (hb : b < s.numBlocks)
    (hproven : ∀ j h, hashes[j]? = some h → Proven E.crypto (s.blk b) shardnum (n + j) h)
    (hB : ∀ j h, hashes[j]? = some h → B b shardnum (n + j) h)
    (hc : (s.blk b).complaint = none) :
    Ensures (Stopped E g s₀) (putTxhashesInShard E b shardnum hashes n s) fun s' =>
      Moves E g I s₀ s' ∧ s.numBlocks ≤ s'.numBlocks := by
  induction hashes generalizing n s with
  | nil => exact ⟨ht, Nat.le_refl _⟩
  | cons h rest ih =>
    have hls := (ht.ledger hl).1
    unfold putTxhashesInShard
    refine ((putTxhashInShard_moves hK hls (.refl _) hb (hproven 0 h rfl) (hB 0 h rfl)
      fun _ _ => hc).weaken
      (Stopped.after ht.trail)).bind fun r hr => ?_
    obtain ⟨s₁, new⟩ := r
    obtain ⟨ht₁, hc₁, -⟩ := hr
    dsimp only at ht₁ hc₁ ⊢
    have hlater := (ht₁.ledger hls).2
    refine (ih (n + 1) (ht.trans ht₁) (hb.trans_le hlater.numBlocks) (fun j e he => ?_)
      (fun j e he => ?_) (hc₁.trans hc)).mono fun s₂ h₂ => ⟨h₂.1, hlater.numBlocks.trans h₂.2⟩
    · have hj := hproven (j + 1) e he
      rw [show n + (j + 1) = n + 1 + j by omega] at hj
      exact hlater.proven hb hj
    · have hj := hB (j + 1) e he
      rw [show n + (j + 1) = n + 1 + j by omega] at hj
      exact hj

/-- A SHARD packet says that this entry is at this place. -/
structure PktShard.Says (pkt : PktShard D) (i j : Nat) (e : TxRefHash D) : Prop where
  shard : i = pkt.shard.toNat
  hash : pkt.hashes[j]? = some e

/-- `recv_shard` takes the hashes. -/
structure AcceptsShard (E : Env D) (s : State D) (pkt : PktShard D) (b : BlockId) : Prop where
  clean : (s.blk b).complaint = none
  shard_lt : pkt.shard.toNat < (s.blk b).numShards
  length : pkt.hashes.length = (s.blk b).shardSize pkt.shard.toNat
  root : ∃ merkle, merkleHashes E.crypto pkt.hashes 0 pkt.hashes.length = .ok merkle ∧
    (s.blk b).merkles[pkt.shard.toNat]? = some merkle

theorem recvShard_moves (hK : Kept E g B I) (hl : Ledger E s₀) (ht : Moves E g I s₀ s)
    (peer : Option Peer) (pkt : PktShard D)
    (hB : ∀ b, blockFindAny s pkt.block = some b → AcceptsShard E s pkt b →
      ∀ i j e, pkt.Says i j e → B b i j e) :
    Ensures (Stopped E g s₀) (recvShard E s peer pkt) fun r => Moves E g I s₀ r.1 := by
  unfold recvShard
  dsimp only
  split
  · exact ht.emit hK.toSteady _
  · rename_i b hfind
    have hb := (blockFindAny_spec hfind).1
    split_ifs with hcomplaint hshard hlen hempty
    · exact ht.still hK.toSteady (tellComplaint_still (.refl s) peer b)
    · exact ht
    · exact ht
    · exact ht
    · rw [not_not] at hlen
      rw [← hlen]
      rw [merkleHashes_eq_entriesRoot, ok_bind]
      split_ifs with hmerkle
      · exact ht
      · rw [not_not] at hmerkle
        have hproven : ∀ j h, pkt.hashes[j]? = some h →
            Proven E.crypto (s.blk b) pkt.shard.toNat (0 + j) h := by
          intro j h hj
          rw [Nat.zero_add]
          exact proven_of_merkleHashes (by omega) hlen (merkleHashes_eq_entriesRoot _ _) hmerkle hj
        have hc : (s.blk b).complaint = none := by simpa using hcomplaint
        have hbrings : ∀ j h, pkt.hashes[j]? = some h →
            B b pkt.shard.toNat (0 + j) h := by
          intro j h hj
          rw [Nat.zero_add]
          exact hB b hfind ⟨hc, by omega, hlen, _, merkleHashes_eq_entriesRoot _ _, hmerkle⟩ _ _ _
            ⟨rfl, hj⟩
        refine (putTxhashesInShard_moves hK hl pkt.hashes 0 ht hb hproven hbrings hc).bind
          fun s₁ h₁ => ?_
        refine Ensures.bind ?_ fun s₂ h₂ => h₂
        exact tryResolveHashes_moves hK hl _ _ _ h₁.1 (hb.trans_le h₁.2)

/-- The promise about a packet that names a place: if it is taken and `g` holds of what
is there, the block has no complaint. -/
def FillsClean (g : Slot D → Prop) (s : State D) (pos : Position D) (takes : BlockId → Prop) :
    Prop :=
  ∀ b : Nat, blockFindAny s pos.block = some b → takes b →
    g ((s.shardOf b pos.shard.toNat).u pos.txoff.toNat) → (s.blk b).complaint = none

/-- `recv_hashes_in_block` takes the hash. -/
def TakesHash (E : Env D) (s : State D) (pkt : HashProof D) (b : BlockId) : Prop :=
  checkProofByhash E.crypto pkt.proof (s.blk b) pkt.txrefhash = true

/-- `recv_tx_in_block` takes the transaction. -/
structure TakesTx (E : Env D) (s : State D) (t : ProvenTx D) (b : BlockId) : Prop extends
    InputsPass E s b t where
  tx : checkTx E.crypto s t.tx (some b) = .none
  length : t.refs.length = numInputs t.tx
  refsOk : checkRefs s b t.refs = .none
  proof : checkProof E.crypto t.proof (s.blk b) t.tx t.refs = true
  order : checkTxOrdering E (s.shardOf b t.proof.pos.shard.toNat) t.proof.pos.txoff.toNat t.tx
    = none

theorem recvHashesInBlock_moves (hK : Kept E g B I) (hl : Ledger E s₀) (ht : Moves E g I s₀ s)
    (peer : Peer)
    (pkt : HashProof D) (hg : FillsClean g s pkt.proof.pos (TakesHash E s pkt))
    (hB : ∀ b, blockFindAny s pkt.proof.pos.block = some b → TakesHash E s pkt b →
      B b pkt.proof.pos.shard.toNat pkt.proof.pos.txoff.toNat pkt.txrefhash) :
    Ensures (Stopped E g s₀) (recvHashesInBlock E s peer pkt) fun r => Moves E g I s₀ r.1 := by
  unfold recvHashesInBlock
  dsimp only
  split
  · exact ht.emit hK.toSteady _
  · rename_i b hfind
    have hb := (blockFindAny_spec hfind).1
    split_ifs with hproof
    · exact ht
    · have haccepted : TakesHash E s pkt b := by simpa [TakesHash] using hproof
      have hproven : Proven E.crypto (s.blk b) pkt.proof.pos.shard.toNat
          pkt.proof.pos.txoff.toNat pkt.txrefhash := ⟨pkt.proof, rfl, rfl, haccepted⟩
      have hls := (ht.ledger hl).1
      refine ((putTxhashInShard_moves hK hls (.refl s) hb hproven (hB b hfind haccepted) fun h hu =>
        hg b hfind haccepted (hu ▸ h)).weaken (Stopped.after ht.trail)).bind fun r hr => ?_
      obtain ⟨s₁, new⟩ := r
      obtain ⟨hmoves, -, hnamed⟩ := hr
      have h₁ := ht.trans hmoves
      dsimp only at hmoves h₁ hnamed ⊢
      cases new with
      | false => exact h₁
      | true =>
        simp only [Bool.not_true, Bool.false_eq_true, if_false]
        have hnamed₁ := hnamed rfl
        have hlater := (hmoves.ledger hls).2
        have h₂ : Moves E g I s₀ (putProofInShard s₁ b pkt.proof) ∧
            Named (putProofInShard s₁ b pkt.proof) b pkt.proof.pos.shard.toNat
              pkt.proof.pos.txoff.toNat := by
          obtain ⟨te, hte, hloc⟩ := hnamed₁
          rw [← (putProofInShard_fields s₁ b pkt.proof).2.1] at hte
          exact ⟨putProofInShard_moves hK hl h₁ (hb.trans_le hlater.numBlocks)
            ((hlater.checkProofByhash_eq hb _ _).trans haccepted), te, hte, hloc⟩
        have hb₂ := ((h₂.1.ledger hl).1.provable h₂.2).1
        refine (tryResolveHash_moves hK hl h₂.1 _ hb₂ (.inr h₂.2)).bind fun r hr => ?_
        obtain ⟨s₃, resolved⟩ := r
        dsimp only at hr ⊢
        split_ifs
        · exact hr.1
        · exact hr.1.emit hK.toSteady _

theorem recvProvenTx_moves (hK : Kept E g B I) (hl : Ledger E s₀) (ht : Moves E g I s₀ s)
    (source : Option Nat)
    (hb : b < s.numBlocks) {t : ProvenTx D}
    (hcheck : checkProof E.crypto t.proof (s.blk b) t.tx t.refs = true)
    (hok : TxOk E.crypto t.tx)
    (hg : InputsPass E s b t →
      checkTxOrdering E (s.shardOf b t.proof.pos.shard.toNat) t.proof.pos.txoff.toNat t.tx = none →
      g ((s.shardOf b t.proof.pos.shard.toNat).u t.proof.pos.txoff.toNat) →
        (s.blk b).complaint = none)
    (hB : InputsPass E s b t →
      checkTxOrdering E (s.shardOf b t.proof.pos.shard.toNat) t.proof.pos.txoff.toNat t.tx = none →
      B b t.proof.pos.shard.toNat t.proof.pos.txoff.toNat (hashTxAndRefs E.crypto t.tx t.refs))
    (hrefs : checkRefs s b t.refs = .none) (hlen : t.refs.length = numInputs t.tx) :
    Ensures (Stopped E g s₀) (recvProvenTx E s source b t) (Moves E g I s₀) := by
  have hls := (ht.ledger hl).1
  have hproven : Proven E.crypto (s.blk b) t.proof.pos.shard.toNat t.proof.pos.txoff.toNat
      (hashTxAndRefs E.crypto t.tx t.refs) := ⟨t.proof, rfl, rfl, hcheck⟩
  have hprovable : Provable E.crypto s b := ⟨hb, _, _, _, hproven⟩
  unfold recvProvenTx
  dsimp only
  have hchecked := checkTxInputsAndRefs_moves hK.toSteady hl ht hprovable t
  cases hresult : checkTxInputsAndRefs E s b t with
  | error e => exact .plain (hchecked.of_error hresult)
  | ok r =>
    have hr := hchecked.of_ok hresult
    rw [ok_bind]
    obtain ⟨s₁, valid⟩ := r
    dsimp only at hr ⊢
    split_ifs with hvalid
    · exact hr.1
    · have htrue : valid = true := by simpa using hvalid
      subst htrue
      have hq : Still s s₁ := hr.2 rfl
      have hlater := ((Step.quiet (E := E) (g := g) hq.toQuiet).ledger hls).2
      split
      · exact (complainMisorder_moves hK.toSteady hl hr.1 (hprovable.later hlater) t _).weaken fun _ => .plain
      · rename_i horder
        rw [hq.shardOf_eq] at horder
        have hput : ∀ s₂, Moves E g I s₀ s₂ → s₂.numBlocks = s₁.numBlocks →
            (∀ x : Nat, ∃ shard, s₂.blk x = { s₁.blk x with shard := shard }) →
            (∀ i j, (s₂.shardOf b i).u j = (s₁.shardOf b i).u j) →
            (∀ i, (s₂.shardOf b i).txcount = (s₁.shardOf b i).txcount ∧
              (s₂.shardOf b i).size = (s₁.shardOf b i).size) →
            Ensures (Stopped E g s₀) (putTxInShard E s₂ source b t.proof.pos.shard.toNat
              t.proof.pos.txoff.toNat t.tx t.refs) (Moves E g I s₀) := by
          intro s₂ h₂ hnum hblk hslots hcounts
          obtain ⟨shard, hblkb⟩ := hblk b
          have hheader : ∀ x, (s₂.blk x).header = (s.blk x).header := by
            intro x
            obtain ⟨shard', hx⟩ := hblk x
            rw [hx, hq.blk x]
            rfl
          refine putTxInShard_moves hK hl h₂ source ?_ ?_ hok (fun h => Or.inl ?_)
            ⟨?_, .inr ⟨?_, (checkRefs_header hheader b t.refs).trans hrefs, hlen⟩⟩
          · rw [hnum]
            exact hb.trans_le hlater.numBlocks
          · refine (hlater.proven hb hproven).congr ?_ ?_ ?_ <;> rw [hblkb]
          · rw [hslots, hq.shardOf_eq] at h
            rw [hblkb]
            show (s₁.blk b).complaint = none
            rw [hq.complaint_eq]
            exact hg (inputsPass_of_true hresult) horder h
          · refine (checkTxOrdering_congr (fun j => ?_) ?_ ?_).trans horder
            · rw [hslots, hq.shardOf_eq]
            · rw [(hcounts _).1, hq.shardOf_eq]
            · rw [(hcounts _).2, hq.shardOf_eq]
          · exact hB (inputsPass_of_true hresult) horder
        have hcheck₁ := (hlater.checkProofByhash_eq hb t.proof _).trans hcheck
        obtain ⟨hnum, -, hblk, hslots⟩ := putProofInShard_fields s₁ b t.proof
        exact hput _ (putProofInShard_moves hK hl hr.1 (hb.trans_le hlater.numBlocks) hcheck₁)
          hnum hblk hslots (putProofInShard_counts s₁ b t.proof)

theorem recvTxInBlock_moves (hK : Kept E g B I) (hl : Ledger E s₀) (ht : Moves E g I s₀ s)
    (peer : Option Peer)
    (t : ProvenTx D) (hg : FillsClean g s t.proof.pos (TakesTx E s t))
    (hB : ∀ b, blockFindAny s t.proof.pos.block = some b → TakesTx E s t b →
      B b t.proof.pos.shard.toNat t.proof.pos.txoff.toNat
        (hashTxAndRefs E.crypto t.tx t.refs)) :
    Ensures (Stopped E g s₀) (recvTxInBlock E s peer t) fun r => Moves E g I s₀ r.1 := by
  unfold recvTxInBlock
  split
  · simp only [ensures_ok]
    split_ifs
    · exact ht.emit hK.toSteady _
    · exact ht
  · rename_i b hfind
    have hb := (blockFindAny_spec hfind).1
    dsimp only
    split_ifs with htx hlen hrefs hproof
    · exact ht
    · exact ht
    · exact ht
    · exact ht
    · rw [not_not] at htx hlen hrefs
      have haccepted : checkProof E.crypto t.proof (s.blk b) t.tx t.refs = true := by
        simpa using hproof
      refine (recvProvenTx_moves hK hl ht _ hb haccepted ?_ (fun hpass horder =>
        hg b hfind ⟨hpass, htx, hlen, hrefs, haccepted, horder⟩) (fun hpass horder =>
        hB b hfind ⟨hpass, htx, hlen, hrefs, haccepted, horder⟩) hrefs hlen).bind fun s₁ h₁ => h₁
      exact txOk_of_checkTx ((ht.ledger hl).1.shardOrder b) htx

-- ---------------------------------------------------------------------------
-- Transactions on their own
-- ---------------------------------------------------------------------------

theorem recvPendingTx_moves (hK : Kept E g B I) (hl : Ledger E s₀) (ht : Moves E g I s₀ s)
    (peer : Peer) (tx : Tx D) :
    Ensures (Stopped E g s₀) (recvPendingTx E s peer tx) (Moves E g I s₀) := by
  unfold recvPendingTx
  exact (resolveHashesOf_moves hK hl _ _ ht).bind fun _ h => h.emit hK.toSteady _

theorem recvTx_moves (hK : Kept E g B I) (hl : Ledger E s₀) (ht : Moves E g I s₀ s) (peer : Peer)
    (tx : Tx D) :
    Ensures (Stopped E g s₀) (recvTx E s peer tx) fun r => Moves E g I s₀ r.1 := by
  have hderef : ∀ {α : Type} (o : Option α), Ensures (Stopped E g s₀) (deref o)
      fun _ => True := fun o => (stopsPlainly_deref o).stopped g s₀
  unfold recvTx
  dsimp only
  split_ifs with hcheck
  · exact ht
  · rw [not_not] at hcheck
    refine ((addPendingTx_moves hK hl ht (txOk_of_checkTx_none hcheck)).weaken fun _ => .plain).bind
      fun r h₁ => ?_
    obtain ⟨s₁, r⟩ := r
    dsimp only at h₁ ⊢
    split
    · exact (recvPendingTx_moves hK hl h₁ peer tx).bind fun _ h => h
    · refine (hderef _).bind fun inp _ => ?_
      refine Ensures.bind (P := Moves E g I s₀) ?_ fun _ h => h
      split_ifs
      · exact recvPendingTx_moves hK hl (h₁.emit hK.toSteady _) peer tx
      · exact recvPendingTx_moves hK hl h₁ peer tx
    · split_ifs
      · exact h₁
      · unfold tellPeerAboutBadInput
        refine Ensures.bind (P := Moves E g I s₀) ?_ fun _ h => h
        exact (hderef _).bind fun _ _ => (hderef _).bind fun _ _ => h₁.emit hK.toSteady _
    · unfold tellPeerAboutBadAmount
      refine Ensures.bind (P := Moves E g I s₀) ?_ fun _ h => h
      exact Ensures.bind (Ensures.mapM fun _ _ => hderef _) fun _ _ => h₁.emit hK.toSteady _
    · unfold tellPeerAboutDoublespend
      refine Ensures.bind (P := Moves E g I s₀) ?_ fun _ h => h
      refine (hderef _).bind fun _ _ => (hderef _).bind fun pos _ => ?_
      obtain ⟨y, i, j⟩ := pos
      refine (hderef _).bind fun _ _ => ?_
      split
      · exact .plain trivial
      · exact h₁.emit hK.toSteady _
    · refine (hderef _).bind fun inp _ => ?_
      unfold sendClaimInput
      refine Ensures.bind (P := Moves E g I s₀) ?_ fun _ h => h
      refine (hderef _).bind fun pos _ => ?_
      obtain ⟨y, i, j⟩ := pos
      exact ((provenTxAt_plain _ _ _ _ _).stopped g s₀).bind fun _ _ => h₁.emit hK.toSteady _

-- ---------------------------------------------------------------------------
-- Blocks
-- ---------------------------------------------------------------------------

/-- What a header that passes says. -/
structure HeaderOk (C : Crypto D) (s : State D) (p : BlockParts D) (prev : BlockId) : Prop where
  version : versionOk p.hdr.version = true
  enough : beatsTarget (hashBlock C p) p.tailer.difficulty = .ok true
  found : blockFindAny s p.hdr.prevBlock = some prev
  shardOrder : p.hdr.shardOrder = protocolInitialShardOrder
  depth : p.hdr.depth = (s.blk prev).hdr.depth + 1
  timestamp : checkTimestamp s p.tailer.timestamp prev = true
  difficulty : getDifficulty s prev = .ok p.tailer.difficulty

omit [Digest D] [DecidableEq D] in
theorem checkAgainstPrev_ok {p : BlockParts D} {prev : Nat}
    (h : checkAgainstPrev s p prev = .ok .none) :
    p.hdr.shardOrder = protocolInitialShardOrder ∧
      p.hdr.depth = (s.blk prev).hdr.depth + 1 ∧
      checkTimestamp s p.tailer.timestamp prev = true ∧
      getDifficulty s prev = .ok p.tailer.difficulty := by
  unfold checkAgainstPrev at h
  split_ifs at h with horder hdepth htime
  · exact absurd h (by simp)
  · exact absurd h (by simp)
  · exact absurd h (by simp)
  · obtain ⟨difficulty, hdiff, hrest⟩ := of_bind_eq_ok h
    split_ifs at hrest with hne
    · exact absurd hrest (by simp)
    · rw [not_not] at horder hdepth hne
      exact ⟨horder, hdepth, by simpa using htime, hne ▸ hdiff⟩

theorem headerOk_of_ok {C : Crypto D} {p : BlockParts D} {prev : Nat}
    (h : checkBlockHeader C s p = .ok (.none, some prev)) : HeaderOk C s p prev := by
  unfold checkBlockHeader at h
  split_ifs at h with hversion
  · exact absurd h (by simp)
  · obtain ⟨enough, hbeats, h⟩ := of_bind_eq_ok h
    split_ifs at h with henough
    · exact absurd h (by simp)
    · split at h
      · exact absurd h (by simp)
      · rename_i prev' hfind
        obtain ⟨e, hagainst, h⟩ := of_bind_eq_ok h
        injection h with h
        injection h with he hprev
        injection hprev with hprev
        subst he hprev
        obtain ⟨horder, hdepth, htime, hdiff⟩ := checkAgainstPrev_ok hagainst
        have htrue : enough = true := by simpa using henough
        exact ⟨by simpa using hversion, htrue ▸ hbeats, hfind, horder, hdepth, htime, hdiff⟩

omit [DecidableEq D] in
/-- The exponents that `beats_target` lets through. -/
theorem difficultyExp_of_beatsTarget {sha : D} {difficulty : UInt32} {enough : Bool}
    (h : beatsTarget sha difficulty = .ok enough) :
    3 ≤ difficultyExp difficulty ∧ difficultyExp difficulty ≤ 32 := by
  unfold beatsTarget at h
  obtain ⟨_, hassert, -⟩ := of_bind_eq_ok h
  unfold assert at hassert
  split_ifs at hassert with hexp
  simp only [Bool.and_eq_true, decide_eq_true_eq] at hexp
  exact ⟨hexp.2, hexp.1⟩

theorem HeaderOk.addable {C : Crypto D} {p : BlockParts D} {prev : Nat}
    (h : HeaderOk C s p prev) (hnew : blockFindAny s (hashBlock C p) = none) :
    Addable s prev (p.toNewBlock C) where
  prev_lt := (blockFindAny_spec h.found).1
  shardOrder := h.shardOrder
  depth := h.depth
  expLow := (difficultyExp_of_beatsTarget h.enough).1
  expHigh := (difficultyExp_of_beatsTarget h.enough).2
  difficulty := h.difficulty
  fresh := hnew

theorem blockAdd_trail (ht : Trail E g s₀ s) {prev : Nat} (nb : NewBlock D)
    (hadd : Addable s prev nb) :
    Ensures Fault.Plain (blockAdd s prev nb) fun r => Trail E g s₀ r.1 := by
  have hsew : Trail E g s₀ (sewBlock s prev nb) := ht.tail (.sew prev nb hadd)
  unfold blockAdd
  exact (checkChains_plain _).bind fun _ _ => hsew.quiet (blockAddHeads_quiet s prev nb)

theorem blockAdd_moves (hK : Kept E g B I) (hl : Ledger E s₀) (ht : Moves E g I s₀ s) {prev : Nat}
    (p : BlockParts D) (hadd : Addable s prev (p.toNewBlock E.crypto)) :
    Ensures Fault.Plain (blockAdd s prev (p.toNewBlock E.crypto)) fun r => Moves E g I s₀ r.1 :=
  ht.of_trail (blockAdd_trail ht.trail _ hadd) fun _ => hK.addBlock (ht.ledger hl).1 hadd ⟨p, rfl⟩

theorem checkBlockHeader_plain (C : Crypto D) (s : State D) (p : BlockParts D) :
    StopsPlainly (checkBlockHeader C s p) :=
  (checkBlockHeader_spec C s p).mono fun _ _ => trivial

theorem recvBlock_moves (hK : Kept E g B I) (hl : Ledger E s₀) (ht : Moves E g I s₀ s)
    (peer : Option Peer) (p : BlockParts D) :
    Ensures Fault.Plain (recvBlock E.crypto s peer p) fun r => Moves E g I s₀ r.1 := by
  unfold recvBlock
  cases hcheck : checkBlockHeader E.crypto s p with
  | error e => exact (checkBlockHeader_plain E.crypto s p).of_error hcheck
  | ok r =>
    rw [ok_bind]
    split
    · rename_i prev
      have hok := headerOk_of_ok hcheck
      unfold recvGoodBlock
      split_ifs
      · exact ht
      · split
        · exact ht.still hK.toSteady (tellComplaint_still (.refl s) peer _)
        · rename_i hnew
          refine (blockAdd_moves hK hl ht p (hok.addable hnew)).bind
            fun r h₁ => ?_
          obtain ⟨s₁, b⟩ := r
          dsimp only at h₁ ⊢
          refine (announceBlock_still E.crypto (.refl s₁) peer b).bind fun s₂ h₂ => ?_
          exact h₁.still hK.toSteady (tellComplaint_still h₂ peer b)
    · split_ifs
      · exact ht
      · unfold seekPredecessor
        refine Ensures.bind (P := Moves E g I s₀) ?_ fun s₁ h₁ => h₁
        refine (beatsTarget_plain _ _).bind fun enough _ => ?_
        simp only [ensures_ok]
        split_ifs
        · exact ht.emit hK.toSteady _
        · exact ht
      · exact ht

theorem recvBlockFromPeer_moves (hK : Kept E g B I) (hl : Ledger E s₀) (ht : Moves E g I s₀ s)
    (peer : Peer) (p : BlockParts D) :
    Ensures Fault.Plain (recvBlockFromPeer E.crypto s peer p) fun r => Moves E g I s₀ r.1 := by
  unfold recvBlockFromPeer
  refine (recvBlock_moves hK hl ht _ p).bind fun r hr => ?_
  exact (stopsPlainly_assert .uninitialised trivial).bind fun _ _ => hr

theorem recvShards_moves (hK : Kept E g B I) (hl : Ledger E s₀) (pkts : List (PktShard D)) (n : Nat)
    (ht : Moves E g I s₀ s) (hB : ∀ pkt ∈ pkts, ∀ b i j e, pkt.Says i j e → B b i j e) :
    Ensures (Stopped E g s₀) (recvShards E b pkts n s) fun r => Moves E g I s₀ r.1 := by
  induction pkts generalizing n s with
  | nil => exact ht
  | cons pkt rest ih =>
    obtain ⟨hpkt, hrest⟩ := List.forall_mem_cons.mp hB
    unfold recvShards
    split_ifs
    · exact ih _ ht hrest
    · refine (recvShard_moves hK hl ht none pkt fun b _ _ => hpkt b).bind fun r hr => ?_
      obtain ⟨s₁, e⟩ := r
      dsimp only at hr ⊢
      split_ifs
      · exact hr
      · exact ih _ hr hrest

theorem recvBlockFromGenerator_moves (hK : Kept E g B I) (hl : Ledger E s₀) (ht : Moves E g I s₀ s)
    (p : BlockParts D) (shards : List (PktShard D))
    (hB : ∀ pkt ∈ shards, ∀ b i j e, pkt.Says i j e → B b i j e) :
    Ensures (Stopped E g s₀) (recvBlockFromGenerator E s p shards) fun r => Moves E g I s₀ r.1 := by
  unfold recvBlockFromGenerator
  refine ((recvBlock_moves hK hl ht none p).weaken fun _ => .plain).bind fun r hr => ?_
  obtain ⟨s₁, e, b⟩ := r
  dsimp only at hr ⊢
  split_ifs
  · exact hr
  · refine ((stopsPlainly_deref b).stopped g s₀).bind fun b _ => ?_
    refine (recvShards_moves hK hl shards 0 hr hB).bind fun r hr => ?_
    obtain ⟨s₂, good⟩ := r
    dsimp only at hr ⊢
    split_ifs
    · exact hr
    · exact ((recheckPendingTxs_moves hK hl hr).weaken fun _ => .plain).bind fun _ h => h

-- ---------------------------------------------------------------------------
-- Received complaints
-- ---------------------------------------------------------------------------

/-- The transaction is proven to be where it says. -/
def ProvenTx.Held (C : Crypto D) (s : State D) (t : ProvenTx D) (b : Nat) : Prop :=
  blockFindAny s t.proof.pos.block = some b ∧ checkProof C t.proof (s.blk b) t.tx t.refs = true

theorem provenTxBlock_ok {C : Crypto D} {t : ProvenTx D} {b : Nat}
    (h : provenTxBlock C s t = .ok b) : t.Held C s b := by
  unfold provenTxBlock at h
  split at h
  · exact absurd h (by simp)
  · rename_i b' hfind
    split at h
    · split_ifs at h with hproof
      obtain rfl := Except.ok.inj h
      exact ⟨hfind, hproof⟩
    · exact absurd h (by simp)

omit [Digest D] [DecidableEq D] in
theorem withBlock_eq_publish {t : ProvenTx D} {found : Except Ecode BlockId}
    {next : BlockId → Verdict D} {b : Nat} :
    withBlock t found next = .publish b ↔ ∃ b', found = .ok b' ∧ next b' = .publish b := by
  unfold withBlock
  split
  · simp
  · simp
  · simp

theorem ProvenTx.Held.provable {C : Crypto D} {t : ProvenTx D} (h : t.Held C s b) :
    Provable C s b :=
  ⟨(blockFindAny_spec h.1).1, _, _, _, t.proof, rfl, rfl, h.2⟩

/-- A complaint is published about a block that something has been proven to be in. -/
def Verdict.Founded (C : Crypto D) (s : State D) (verdict : Verdict D) : Prop :=
  ∀ b : Nat, verdict = .publish b → Provable C s b

/-- A handler that goes on from the block of one of its transactions. -/
theorem withBlock_founded {C : Crypto D} {t : ProvenTx D} {next : BlockId → Verdict D}
    (h : ∀ b : Nat, provenTxBlock C s t = .ok b → (next b).Founded C s) :
    (withBlock t (provenTxBlock C s t) next).Founded C s := by
  intro b hb
  obtain ⟨b', hok, hnext⟩ := withBlock_eq_publish.mp hb
  exact h b' hok b hnext

theorem founded_refuse (C : Crypto D) (s : State D) (e : Ecode) :
    (Verdict.refuse e : Verdict D).Founded C s := fun _ h => absurd h (by simp)

/-- Publishing about the block of the transaction itself. -/
theorem founded_publish {C : Crypto D} {t : ProvenTx D} (h : provenTxBlock C s t = .ok b) :
    (Verdict.publish b : Verdict D).Founded C s := by
  intro b' hb'
  injection hb' with hb'
  exact hb' ▸ (provenTxBlock_ok h).provable

theorem complainTxMisorder_founded (t1 t2 : ProvenTx D) :
    (complainTxMisorderVerdict E t1 t2 (provenTxBlock E.crypto s t1)
      (provenTxBlock E.crypto s t2)).Founded E.crypto s := by
  unfold complainTxMisorderVerdict
  refine withBlock_founded fun b1 _ => ?_
  split
  · exact founded_refuse _ _ _
  · rename_i b2 h2
    dsimp only
    split_ifs
    all_goals first
      | exact founded_refuse _ _ _
      | exact founded_publish h2

theorem complainTxInvalid_founded (C : Crypto D) (error : Ecode) (proof : Proof D) (tx : TxBlob D)
    (refs : List UInt8) : (complainTxInvalidVerdict C s error proof tx refs).Founded C s := by
  unfold complainTxInvalidVerdict
  split
  · exact fun _ h => absurd h (by simp)
  · rename_i b hfind
    dsimp only
    split_ifs with _ _ _ hproof
    · exact founded_refuse _ _ _
    · exact founded_refuse _ _ _
    · exact founded_refuse _ _ _
    · exact founded_refuse _ _ _
    · intro b' hb'
      injection hb' with hb'
      subst hb'
      exact ⟨(blockFindAny_spec hfind).1, _, _, _, proof, rfl, rfl, by simpa using hproof⟩

theorem complainTxBadInput_founded (inputnum : Nat) (t : ProvenTx D) (inTx : Tx D) :
    (complainTxBadInputVerdict E s inputnum t inTx (provenTxBlock E.crypto s t)).Founded
      E.crypto s := by
  unfold complainTxBadInputVerdict
  refine withBlock_founded fun b h => ?_
  split
  · split
    · exact founded_refuse _ _ _
    · exact founded_refuse _ _ _
    · exact founded_publish h
  · exact founded_refuse _ _ _

theorem complainTxBadAmount_founded (t : ProvenTx D) (inputs : List (Tx D)) :
    (complainTxBadAmountVerdict E s t inputs (provenTxBlock E.crypto s t)).Founded
      E.crypto s := by
  unfold complainTxBadAmountVerdict
  refine withBlock_founded fun b h => ?_
  split
  · exact founded_publish h
  · exact founded_refuse _ _ _

theorem complainDoublespend_founded (C : Crypto D) (input1 input2 : Nat) (t1 t2 : ProvenTx D) :
    (complainDoublespendVerdict s input1 input2 t1 t2 (provenTxBlock C s t1)
      (provenTxBlock C s t2)).Founded C s := by
  unfold complainDoublespendVerdict
  refine withBlock_founded fun b1 _ => ?_
  split
  · exact founded_refuse _ _ _
  · refine withBlock_founded fun b2 h2 => ?_
    split
    · exact founded_refuse _ _ _
    · split_ifs
      · exact founded_refuse _ _ _
      · exact founded_refuse _ _ _
      · exact founded_publish h2

theorem complainBadInputRef_founded (C : Crypto D) (inputnum : Nat) (t input : ProvenTx D) :
    (complainBadInputRefVerdict C s inputnum t input (provenTxBlock C s t)
      (provenTxBlock C s input)).Founded C s := by
  unfold complainBadInputRefVerdict
  refine withBlock_founded fun b h => ?_
  split
  · refine withBlock_founded fun b2 _ => ?_
    split_ifs
    all_goals first
      | exact founded_refuse _ _ _
      | exact founded_publish h
  · exact founded_refuse _ _ _

theorem complainClaim_founded (C : Crypto D) (claim reward : ProvenTx D) :
    Ensures Fault.Plain (complainClaimVerdict C s claim reward (provenTxBlock C s claim)
      (provenTxBlock C s reward)) (Verdict.Founded C s) := by
  unfold complainClaimVerdict
  split
  · rename_i claimB rewardB hclaim hreward
    split
    · split_ifs
      · exact founded_refuse _ _ _
      · unfold claimIsValid
        refine Ensures.bind (P := fun _ => True) ?_ fun valid _ => ?_
        · exact (checkClaimInput_plain _ _ _ _ _ _ _ _ _).bind fun _ _ => trivial
        · show Verdict.Founded C s _
          split_ifs
          · exact founded_refuse _ _ _
          · exact founded_publish hclaim
    · exact founded_refuse _ _ _
  · exact withBlock_founded fun _ _ => founded_refuse _ _ _
  · exact withBlock_founded fun _ _ => founded_refuse _ _ _

theorem runVerdict_moves (hK : Kept E g B I) (hl : Ledger E s₀) (ht : Moves E g I s₀ s)
    (peer : Peer) (complaint : Complaint D)
    {verdict : Verdict D} (hv : verdict.Founded E.crypto s) :
    Ensures Fault.Plain (runVerdict E s peer complaint verdict) fun r => Moves E g I s₀ r.1 := by
  cases verdict with
  | refuse e => exact ht
  | askFor block => exact ht.emit hK.toSteady _
  | publish b => exact (publishComplaint_moves hK.toSteady hl ht (hv b rfl) _ _).bind fun _ hs => hs

theorem complainInBlocks_moves (hl : Ledger E s₀)
    {complain : State D → BlockId → ProvenTx D → Res (State D)}
    (hc : ∀ (s : State D) (b : Nat) (t : ProvenTx D), Moves E g I s₀ s → Provable E.crypto s b →
      Ensures Fault.Plain (complain s b t) (Moves E g I s₀))
    (tx : Tx D) (elems : List (TxhashElem D)) (ht : Moves E g I s₀ s) :
    Ensures Fault.Plain (complainInBlocks E.crypto complain tx elems s) (Moves E g I s₀) := by
  induction elems generalizing s with
  | nil => exact ht
  | cons te rest ih =>
    rw [complainInBlocks]
    split
    · exact ih ht
    · rename_i b i j hloc
      split_ifs with hthere
      · have hnamed : Named s b i j := ⟨te, by simpa using hthere, hloc⟩
        refine (createProof_plain _ _ _ _ _).bind fun _ _ => ?_
        refine (stopsPlainly_deref _).bind fun _ _ => ?_
        exact (hc s b _ ht ((ht.ledger hl).1.provable hnamed)).bind fun s₁ h₁ => ih h₁
      · exact ih ht

theorem recvTxBadInput_moves (hK : Kept E g B I) (hl : Ledger E s₀) (ht : Moves E g I s₀ s)
    (inputnum : Nat)
    (tx inTx : Tx D) :
    Ensures Fault.Plain (recvTxBadInput E s inputnum tx inTx) fun r => Moves E g I s₀ r.1 := by
  unfold recvTxBadInput
  dsimp only
  split_ifs
  · exact ht
  · exact ht
  · split
    · exact ht
    · exact ht
    · refine (complainInBlocks_moves hl (fun s b t hs hb => complainBadInput_moves hK.toSteady hl hs hb t _ _)
        tx _ ht).bind fun s₁ h₁ => ?_
      exact (dropPendingTx_moves hK hl h₁ tx).bind fun _ hs => hs

theorem recvTxBadAmount_moves (hK : Kept E g B I) (hl : Ledger E s₀) (ht : Moves E g I s₀ s) (tx : Tx D)
    (inputs : List (Tx D)) :
    Ensures Fault.Plain (recvTxBadAmount E s tx inputs) fun r => Moves E g I s₀ r.1 := by
  unfold recvTxBadAmount
  dsimp only
  split_ifs
  · exact ht
  · exact ht
  · have hunset : ∀ (s : State D) (b : Nat) (t : ProvenTx D), Moves E g I s₀ s →
        Provable E.crypto s b →
        Ensures Fault.Plain (.error .uninitialised : Res (State D)) (Moves E g I s₀) :=
      fun _ _ _ _ _ => trivial
    refine (complainInBlocks_moves hl hunset tx _ ht).bind fun s₁ h₁ => ?_
    exact (dropPendingTx_moves hK hl h₁ tx).bind fun _ hs => hs

omit [DecidableEq D] in
/-- Both sides that `recv_tx_doublespend` finds are places that `txhash` names. -/
theorem named_of_nextSpends [DecidableEq D] {C : Crypto D} {pkt : PktTxDoublespend D}
    {one two : SpendAt D} (h : nextSpends C s pkt = some (one, two)) :
    Named s one.block one.shardnum one.txoff ∧ Named s two.block two.shardnum two.txoff := by
  unfold nextSpends at h
  obtain ⟨teA, hteA, h⟩ := List.exists_of_findSome?_eq_some h
  obtain ⟨teB, hteB, h⟩ := List.exists_of_findSome?_eq_some h
  have hA := (List.mem_filter.mp hteA).1
  have hB := (List.mem_filter.mp hteB).1
  unfold spendSides at h
  split at h
  · rename_i ba i j bb k l hlocA hlocB
    dsimp only at h
    split_ifs at h
    · injection h with h
      injection h with h1 h2
      subst h1 h2
      exact ⟨⟨teA, hA, hlocA⟩, ⟨teB, hB, hlocB⟩⟩
    · injection h with h
      injection h with h1 h2
      subst h1 h2
      exact ⟨⟨teB, hB, hlocB⟩, ⟨teA, hA, hlocA⟩⟩
  · exact absurd h (by simp)

theorem doublespendCall_provable (hl : Ledger E s) (pkt : PktTxDoublespend D) :
    Ensures Fault.Plain (doublespendCall E.crypto s pkt) fun call =>
      ∀ one two, call = some (one, two) → Provable E.crypto s two.block := by
  unfold doublespendCall
  split
  · exact fun _ _ h => absurd h (by simp)
  · rename_i one two hnext
    have hspend : ∀ side, Ensures Fault.Plain (spendOf E.crypto s side) fun spend =>
        spend.block = side.block := by
      intro side
      unfold spendOf
      exact (createProof_plain _ _ _ _ _).bind fun _ _ => rfl
    refine (hspend one).bind fun one' _ => (hspend two).bind fun two' htwo => ?_
    intro one'' two'' heq
    injection heq with heq
    injection heq with _ h2
    subst h2
    rw [htwo]
    exact hl.provable (named_of_nextSpends hnext).2

theorem complainDoublespends_moves (hK : Kept E g B I) (hl : Ledger E s₀)
    (pkt : PktTxDoublespend D) (fuel : Nat) (ht : Moves E g I s₀ s)
    (hturns : TurnsLeft E g s₀ s fuel) :
    Ensures (Stopped E g s₀) (complainDoublespends E pkt fuel s) (Moves E g I s₀) := by
  induction fuel generalizing s with
  | zero => exact hturns.resolve_left (Nat.not_lt_zero _)
  | succ fuel ih =>
    unfold complainDoublespends
    have hprovable := (doublespendCall_provable (ht.ledger hl).1 pkt).weaken
      (G := Stopped E g s₀) fun _ => .plain
    cases hcall : doublespendCall E.crypto s pkt with
    | error e => exact hprovable.of_error hcall
    | ok call =>
      rw [ok_bind]
      cases call with
      | none => exact ht
      | some spends =>
        obtain ⟨one, two⟩ := spends
        have hmoves := (complainDoublespend_moves hK.toSteady hl ht one two
          (hprovable.of_ok hcall one two rfl)).weaken (G := Stopped E g s₀) fun _ => .plain
        dsimp only
        cases hcomplain : complainDoublespend E s one two with
        | error e => exact hmoves.of_error hcomplain
        | ok s₁ =>
          rw [ok_bind]
          exact ih (hmoves.of_ok hcomplain)
            (hturns.restart ht.trail (.doublespend pkt one two hcall hcomplain))

theorem recvTxDoublespend_moves (hK : Kept E g B I) (hl : Ledger E s₀) (ht : Moves E g I s₀ s)
    (pkt : PktTxDoublespend D) :
    Ensures (Stopped E g s₀) (recvTxDoublespend E s pkt) fun r => Moves E g I s₀ r.1 := by
  unfold recvTxDoublespend dropBoth
  dsimp only
  split_ifs
  · exact ht
  · refine Ensures.bind (P := Moves E g I s₀) ?_ fun s₁ h₁ => ?_
    · exact ((dropPendingTx_moves hK hl ht _).bind fun s₁ h₁ =>
        dropPendingTx_moves hK hl h₁ _).weaken fun _ => .plain
    · exact (complainDoublespends_moves hK hl pkt _ h₁ (.inl (placed_length_lt _))).bind
        fun _ hs => hs

-- ---------------------------------------------------------------------------
-- The node
-- ---------------------------------------------------------------------------

/-- The promise about an event. -/
def NodeEvent.FillsClean (E : Env D) (g : Slot D → Prop) (s : State D) : NodeEvent D → Prop
  | .packet _ (.txInBlock t) => Pettycoin.FillsClean g s t.proof.pos (TakesTx E s t)
  | .packet _ (.hashesInBlock pkt) => Pettycoin.FillsClean g s pkt.proof.pos (TakesHash E s pkt)
  | _ => True

/-- What an event brings that the node takes. The shards that come with a block of its own
generator are taken as they are. -/
def NodeEvent.Brings (E : Env D) (s : State D) : NodeEvent D → Brought D
  | .packet _ (.txInBlock t) => fun b i j e =>
    blockFindAny s t.proof.pos.block = some b ∧ TakesTx E s t b ∧
      i = t.proof.pos.shard.toNat ∧ j = t.proof.pos.txoff.toNat ∧
      e = hashTxAndRefs E.crypto t.tx t.refs
  | .packet _ (.hashesInBlock pkt) => fun b i j e =>
    blockFindAny s pkt.proof.pos.block = some b ∧ TakesHash E s pkt b ∧
      i = pkt.proof.pos.shard.toNat ∧ j = pkt.proof.pos.txoff.toNat ∧ e = pkt.txrefhash
  | .packet _ (.shard pkt) => fun b i j e =>
    blockFindAny s pkt.block = some b ∧ AcceptsShard E s pkt b ∧ pkt.Says i j e
  | .generator _ shards => fun _ i j e => ∃ pkt ∈ shards, pkt.Says i j e
  | _ => fun _ _ _ _ => False

theorem recvPacket_moves (hK : Kept E g B I) (hl : Ledger E s₀) (ht : Moves E g I s₀ s)
    (peer : Peer) (pkt : Packet D)
    (hg : (NodeEvent.packet peer pkt).FillsClean E g s)
    (hB : (NodeEvent.packet peer pkt).Brings E s ≤ B) :
    Ensures (Stopped E g s₀) (recvPacket E s peer pkt) fun r => Moves E g I s₀ r.1 := by
  have hplain : ∀ {x : Res (State D × Ecode)},
      Ensures Fault.Plain x (fun r => Moves E g I s₀ r.1) →
        Ensures (Stopped E g s₀) x fun r => Moves E g I s₀ r.1 := fun h => h.weaken fun _ => .plain
  unfold recvPacket
  dsimp only
  cases pkt with
  | block p => exact hplain (recvBlockFromPeer_moves hK hl ht peer p)
  | tx tx => exact recvTx_moves hK hl ht peer tx
  | hashesInBlock pkt =>
    exact recvHashesInBlock_moves hK hl ht peer pkt hg fun b hfind htakes =>
      hB _ _ _ _ ⟨hfind, htakes, rfl, rfl, rfl⟩
  | shard pkt =>
    exact recvShard_moves hK hl ht (some peer) pkt fun b hfind htakes i j e hsays =>
      hB _ _ _ _ ⟨hfind, htakes, hsays⟩
  | txInBlock t =>
    exact recvTxInBlock_moves hK hl ht (some peer) t hg fun b hfind htakes =>
      hB _ _ _ _ ⟨hfind, htakes, rfl, rfl, rfl⟩
  | txBadInput inputnum tx inTx => exact hplain (recvTxBadInput_moves hK hl ht inputnum tx inTx)
  | txBadAmount tx inputs => exact hplain (recvTxBadAmount_moves hK hl ht tx inputs)
  | txDoublespend pkt => exact recvTxDoublespend_moves hK hl ht pkt
  | complainTxMisorder t1 t2 =>
    exact hplain (runVerdict_moves hK hl ht peer _ (complainTxMisorder_founded t1 t2))
  | complainTxInvalid error proof tx refs =>
    exact hplain (runVerdict_moves hK hl ht peer _ (complainTxInvalid_founded _ error proof tx refs))
  | complainTxBadInput inputnum t inTx =>
    exact hplain (runVerdict_moves hK hl ht peer _ (complainTxBadInput_founded inputnum t inTx))
  | complainTxBadAmount t inputs =>
    exact hplain (runVerdict_moves hK hl ht peer _ (complainTxBadAmount_founded t inputs))
  | complainDoublespend input1 input2 t1 t2 =>
    exact hplain (runVerdict_moves hK hl ht peer _ (complainDoublespend_founded _ input1 input2 t1 t2))
  | complainBadInputRef inputnum t input =>
    exact hplain (runVerdict_moves hK hl ht peer _ (complainBadInputRef_founded _ inputnum t input))
  | complainClaimInputInvalid claim reward =>
    refine hplain ((complainClaim_founded _ claim reward).bind fun verdict hv => ?_)
    exact runVerdict_moves hK hl ht peer _ hv

theorem pktIn_moves (hK : Kept E g B I) (hl : Ledger E s) (peer : Peer) (pkt : Packet D)
    (hg : (NodeEvent.packet peer pkt).FillsClean E g s)
    (hB : (NodeEvent.packet peer pkt).Brings E s ≤ B) :
    Ensures (Stopped E g s) (pktIn E s peer pkt) fun r => Moves E g I s r.1 := by
  unfold pktIn
  refine (recvPacket_moves hK hl (.refl _) peer pkt hg hB).bind fun r hr => ?_
  obtain ⟨s₁, e⟩ := r
  dsimp only at hr ⊢
  split_ifs
  · exact hr
  · exact ((recheckPendingTxs_moves hK hl hr).weaken fun _ => .plain).bind fun _ h => h

theorem sendrawtransaction_moves (hK : Kept E g B I) (hl : Ledger E s) (tx : Tx D) :
    Ensures Fault.Plain (sendrawtransaction E s tx) fun r => Moves E g I s r.1 := by
  have hrefl : Moves E g I s s := .refl s
  unfold sendrawtransaction
  split_ifs with hcheck
  · exact hrefl
  · rw [not_not] at hcheck
    refine (addPendingTx_moves hK hl hrefl (txOk_of_checkTx_none hcheck)).bind fun r h₁ => ?_
    obtain ⟨s₁, r⟩ := r
    dsimp only at h₁ ⊢
    split
    · exact h₁.emit hK.toSteady _
    · exact (stopsPlainly_deref _).bind fun _ _ => (h₁.emit hK.toSteady _).emit hK.toSteady _
    · exact h₁

/-- **What a node does with an event** is a trail of steps, made of operations. -/
theorem nodeStep_moves (hK : Kept E g B I) (hl : Ledger E s) (event : NodeEvent D)
    (hg : event.FillsClean E g s) (hB : event.Brings E s ≤ B) :
    Ensures (Stopped E g s) (nodeStep E s event) (Moves E g I s) := by
  cases event with
  | packet peer pkt => exact (pktIn_moves hK hl peer pkt hg hB).bind fun _ h => h
  | generator p shards =>
    refine (recvBlockFromGenerator_moves hK hl (.refl s) p shards fun pkt hpkt => ?_).bind
      fun _ h => h
    exact fun b i j e h => hB b i j e ⟨pkt, hpkt, h⟩
  | sendrawtransaction tx =>
    exact ((sendrawtransaction_moves hK hl tx).weaken fun _ => .plain).bind fun _ h => h
  | clock now =>
    exact (Moves.refl s).still hK.toSteady
      ⟨(Quiet.refl s).congr rfl rfl rfl rfl rfl, fun _ => rfl, rfl, rfl, rfl⟩

theorem nodeStep_trail (hl : Ledger E s) (event : NodeEvent D) (hg : event.FillsClean E g s) :
    Ensures (Stopped E g s) (nodeStep E s event) (Trail E g s) :=
  (nodeStep_moves (kept_true E g (event.Brings E s)) hl event hg le_rfl).mono fun _ h => h.trail

end Pettycoin
