import Pettycoin.Slots
import Pettycoin.ReorgRun

/-!
# Pettycoin — the horizon of refs

`check_refs` measures how old the output is that a ref names against the time of
the block the ref is in, `create_refs` against the clock, an hour ahead. A block
may be two hours ahead of the clock, and then the refs made for a transaction in
it may be too old for `check_refs` (`refs_beyond_horizon`), which
`check_tx_refs` asserts. They are not exactly if the block is within the horizon
of what its transaction spends (`checkRefs_createRefs_iff`); if that is so
whenever a hash is resolved, all refs pass (`refs_pass`).

* `checkRefs_eq_none` — when the refs of a transaction pass;
* `Ledger.checkRefs_made_iff` — when the refs that were made for it do;
* `refsPass_of_refRun` — the refs in the blocks, over a whole run;
* `refs_pass` — and so `check_tx_refs` returns.
-/

namespace Pettycoin

open ExceptRules

variable {D : Type} [Digest D] [DecidableEq D] {E : Env D} {s s' : State D}
  {b shardnum txoff : Nat} {tx : Tx D} {refs : List InputRef}

-- ---------------------------------------------------------------------------
-- The refs that are made
-- ---------------------------------------------------------------------------

/-- The block is within the horizon of what the transaction spends before it. -/
def InHorizon (s : State D) (b : BlockId) (tx : Tx D) : Prop :=
  ∀ inp ∈ txInputs tx, ∀ (a : BlockId) (i j : Nat), txhashGettxAncestor s inp.input b = some (a, i, j) →
    ¬ (s.blk a).tailer.timestamp + protocolTxHorizonSecs true < (s.blk b).tailer.timestamp

omit [Digest D] [DecidableEq D] in
/-- The block that `block_preceeds` finds is as many steps back as the depths say. -/
theorem blockAncestor_of_preceeds (hh : HeadersOk s) {a n : Nat} (hb : b < s.numBlocks)
    (h : blockPreceedsFrom s a n b = true) :
    (s.blk a).depth ≤ (s.blk b).depth ∧
      blockAncestor s b ((s.blk b).depth - (s.blk a).depth) = some a := by
  induction n generalizing b with
  | zero =>
    obtain rfl : a = b := beq_iff_eq.mp h
    rw [Nat.sub_self]
    exact ⟨Nat.le_refl _, rfl⟩
  | succ n ih =>
    unfold blockPreceedsFrom at h
    rcases Bool.or_eq_true_iff.mp h with hself | hbefore
    · obtain rfl : a = b := beq_iff_eq.mp hself
      rw [Nat.sub_self]
      exact ⟨Nat.le_refl _, rfl⟩
    · obtain ⟨hdeep, hprev⟩ := Bool.and_eq_true_iff.mp hbefore
      have hlt : (s.blk a).depth < (s.blk b).depth := of_decide_eq_true hdeep
      cases hp : (s.blk b).prev with
      | none =>
        rw [hp] at hprev
        exact absurd hprev (by simp)
      | some p =>
        rw [hp] at hprev
        -- the depth of the block before is one less, since this one's is not 0
        have hpos : 0 < b := by
          rcases Nat.eq_zero_or_pos b with rfl | hpos
          · unfold Block.depth at hlt
            rw [hh.genesis.2] at hlt
            exact absurd hlt (Nat.not_lt_zero _)
          · exact hpos
        obtain ⟨p', hp', hpb, hdepth⟩ := hh.has_prev b hpos hb
        obtain rfl : p = p' := Option.some.inj (hp.symm.trans hp')
        have hstep : (s.blk b).depth = (s.blk p).depth + 1 := by
          unfold Block.depth at hlt ⊢
          rw [hdepth, UInt32.toNat_add] at hlt ⊢
          have hone : (1 : UInt32).toNat = 1 := rfl
          have := (s.blk p).hdr.depth.toNat_lt
          omega
        obtain ⟨hle, hfound⟩ := ih (hpb.trans hb) hprev
        refine ⟨by omega, ?_⟩
        rw [show (s.blk b).depth - (s.blk a).depth = (s.blk p).depth - (s.blk a).depth + 1 by omega]
        unfold blockAncestor
        rw [hp]
        exact hfound

/-- What `txhash_gettx_ancestor` finds is a place of a block at or before this one. -/
theorem Ledger.place_of_ancestor (hl : Ledger E s) (hh : HeadersOk s) {sha : D} {a i j : Nat}
    (hb : b < s.numBlocks) (h : txhashGettxAncestor s sha b = some (a, i, j)) :
    (s.blk a).depth ≤ (s.blk b).depth ∧
      blockAncestor s b ((s.blk b).depth - (s.blk a).depth) = some a ∧
      i < (s.blk a).numShards ∧ j < (s.blk a).shardSize i := by
  unfold txhashGettxAncestor at h
  obtain ⟨te, hte, hin⟩ := List.exists_of_findSome?_eq_some h
  obtain ⟨hmem, -⟩ := List.mem_filter.mp hte
  cases hloc : te.loc with
  | pending tx =>
    rw [hloc] at hin
    exact absurd hin (by simp)
  | inBlock a' i' j' =>
    rw [hloc] at hin
    dsimp only at hin
    split_ifs at hin with hprec
    obtain ⟨rfl, rfl, rfl⟩ : a' = a ∧ i' = i ∧ j' = j := by simpa using hin
    obtain ⟨-, e, hentry, -⟩ := hl.inBlock te hmem a' i' j' hloc
    obtain ⟨hshard, hoff⟩ := hl.in_range hentry
    rw [hl.size] at hoff
    obtain ⟨hle, hanc⟩ := blockAncestor_of_preceeds hh hb hprec
    exact ⟨hle, hanc, hshard, hoff⟩

/-- A ref that `resolve_input` made passes `check_ref` unless the block is beyond the horizon. -/
theorem Ledger.checkRef_made (hl : Ledger E s) (hh : HeadersOk s) {inp : Input D} {ref : InputRef}
    (hb : b < s.numBlocks) (h : resolveInput s b inp 0 = some ref) :
    ∃ a i j, txhashGettxAncestor s inp.input b = some (a, i, j) ∧
      (checkRef s b ref = .none ↔
        ¬ (s.blk a).tailer.timestamp + protocolTxHorizonSecs true
          < (s.blk b).tailer.timestamp) := by
  unfold resolveInput at h
  cases hfound : txhashGettxAncestor s inp.input b with
  | none =>
    rw [hfound] at h
    exact absurd h (by simp)
  | some place =>
    obtain ⟨a, i, j⟩ := place
    rw [hfound] at h
    dsimp only at h
    split_ifs at h
    obtain rfl := Option.some.inj h
    refine ⟨a, i, j, rfl, ?_⟩
    obtain ⟨hle, hanc, hshard, hoff⟩ := hl.place_of_ancestor hh hb hfound
    have hago : ((s.blk b).hdr.depth - (s.blk a).hdr.depth + 0).toNat
        = (s.blk b).depth - (s.blk a).depth := by
      rw [UInt32.add_zero, UInt32.toNat_sub_of_le]
      · rfl
      · exact hle
    have hshards : (s.blk a).numShards = 4 := by
      unfold Block.numShards
      rw [hl.shardOrder]
      rfl
    have hi : (UInt16.ofNat i).toNat = i :=
      UInt16.toNat_ofNat_of_lt' (lt_of_lt_of_le hshard (by rw [hshards]; decide))
    have hj : (UInt8.ofNat j).toNat = j :=
      UInt8.toNat_ofNat_of_lt' (lt_of_lt_of_le hoff (Nat.le_of_lt (Block.shardSize_lt _ i)))
    unfold checkRef
    dsimp only
    rw [hago, hanc]
    dsimp only
    rw [hi, hj, if_neg (Nat.not_le.mpr hshard), if_neg (Nat.not_le.mpr hoff)]
    split_ifs with hlate
    · exact ⟨fun hno => absurd hno (by decide), fun hno => absurd hlate hno⟩
    · exact ⟨fun _ => hlate, fun _ => rfl⟩

omit [Digest D] [DecidableEq D] in
theorem checkRefs_eq_none : checkRefs s b refs = .none ↔ ∀ ref ∈ refs, checkRef s b ref = .none := by
  unfold checkRefs
  constructor
  · intro h ref href
    by_contra hne
    cases hfind : (refs.map (checkRef s b)).find? (· ≠ .none) with
    | none =>
      have := List.find?_eq_none.mp hfind _ (List.mem_map_of_mem href)
      exact this (decide_eq_true hne)
    | some e =>
      rw [hfind] at h
      have := List.find?_some hfind
      exact of_decide_eq_true this h
  · intro h
    have hnone : (refs.map (checkRef s b)).find? (· ≠ .none) = none := by
      rw [List.find?_eq_none]
      intro e he
      obtain ⟨ref, href, rfl⟩ := List.mem_map.mp he
      rw [h ref href]
      decide
    rw [hnone]
    rfl

/-- Refs that `create_refs` made pass `check_refs` exactly if the block is within the horizon of
what its transaction spends. -/
theorem Ledger.checkRefs_made_iff (hl : Ledger E s) (hh : HeadersOk s) (hb : b < s.numBlocks)
    (h : createRefs s b tx 0 = some refs) : checkRefs s b refs = .none ↔ InHorizon s b tx := by
  have hall := forall₂_of_mapM h
  rw [checkRefs_eq_none]
  unfold InHorizon
  clear h
  generalize txInputs tx = inps at hall ⊢
  induction hall with
  | nil => simp
  | @cons inp ref inps refs hmade _ ih =>
    rw [List.forall_mem_cons, List.forall_mem_cons]
    refine and_congr ?_ ih
    obtain ⟨a, i, j, hfound, hiff⟩ := hl.checkRef_made hh hb hmade
    rw [hiff]
    constructor
    · intro hin a' i' j' hfound'
      obtain ⟨rfl, rfl, rfl⟩ : a = a' ∧ i = i' ∧ j = j' := by
        simpa using hfound.symm.trans hfound'
      exact hin
    · exact fun hin => hin a i j hfound

-- ---------------------------------------------------------------------------
-- Runs
-- ---------------------------------------------------------------------------

/-- The states a node is in between two operations, with what it knows when it fills a slot: the
refs came with the transaction and pass, or they were made for a hash and `ok` holds. -/
inductive RefRun (E : Env D) (ok : State D → BlockId → Tx D → Prop) : State D → Prop
  | start (sha merkle : D) (nonce2 : Bytes 13) (tailer : BlockTailer) (now : UInt32)
    (opts : FeeOptions) : RefRun E ok (startNode (genesisBlock sha merkle nonce2 tailer) now opts)
  | still {s s' : State D} : RefRun E ok s → Still s s' → RefRun E ok s'
  | publish {s s' : State D} {b : BlockId} {complaint : Complaint D} {origin : Option Nat} :
    RefRun E ok s → Provable E.crypto s b → publishComplaint E s b complaint origin = .ok s' →
    RefRun E ok s'
  | recheckPending {s s' : State D} : RefRun E ok s → recheckPendingTxs E s = .ok s' →
    RefRun E ok s'
  | addPending {s : State D} {tx : Tx D} {r : State D × AddPending} : RefRun E ok s →
    TxOk E.crypto tx → addPendingTx E s tx = .ok r → RefRun E ok r.1
  | dropPending {s s' : State D} {tx : Tx D} : RefRun E ok s → dropPendingTx E s tx = .ok s' →
    RefRun E ok s'
  | putTx {s s' : State D} {source : Option Nat} {b shardnum txoff : Nat} {tx : Tx D}
    {refs : List InputRef} : RefRun E ok s → b < s.numBlocks →
    Proven E.crypto (s.blk b) shardnum txoff (hashTxAndRefs E.crypto tx refs) →
    TxOk E.crypto tx → checkRefs s b refs = .none → refs.length = numInputs tx →
    putTxInShard E s source b shardnum txoff tx refs = .ok s' → RefRun E ok s'
  | resolve {s s' : State D} {source : Option Nat} {b shardnum txoff : Nat} {tx : Tx D}
    {refs : List InputRef} : RefRun E ok s → b < s.numBlocks →
    Proven E.crypto (s.blk b) shardnum txoff (hashTxAndRefs E.crypto tx refs) →
    TxOk E.crypto tx → createRefs s b tx 0 = some refs → ok s b tx →
    putTxInShard E s source b shardnum txoff tx refs = .ok s' → RefRun E ok s'
  | putTxhash {s : State D} {b shardnum txoff : Nat} {h : TxRefHash D} {r : State D × Bool} :
    RefRun E ok s → b < s.numBlocks → Proven E.crypto (s.blk b) shardnum txoff h →
    putTxhashInShard E s b shardnum txoff h = .ok r → RefRun E ok r.1
  | putProof {s : State D} {b : Nat} {proof : Proof D} {h : TxRefHash D} : RefRun E ok s →
    b < s.numBlocks → checkProofByhash E.crypto proof (s.blk b) h = true →
    RefRun E ok (putProofInShard s b proof)
  | addBlock {s : State D} {prev : BlockId} {nb : NewBlock D} {r : State D × BlockId} :
    RefRun E ok s → Addable s prev nb → blockAdd s prev nb = .ok r → RefRun E ok r.1

variable {ok : State D → BlockId → Tx D → Prop}

theorem RefRun.opReach (h : RefRun E ok s) : OpReach E s := by
  induction h with
  | start sha merkle nonce2 tailer now opts => exact .start sha merkle nonce2 tailer now opts
  | still _ hs ih => exact .still ih hs
  | publish _ hb hs ih => exact .publish ih hb hs
  | recheckPending _ hs ih => exact .recheckPending ih hs
  | addPending _ hok hs ih => exact .addPending ih hok hs
  | dropPending _ hs ih => exact .dropPending ih hs
  | putTx _ hb hproven hok _ _ hput ih => exact .putTx ih hb hproven hok hput
  | resolve _ hb hproven hok _ _ hput ih => exact .putTx ih hb hproven hok hput
  | putTxhash _ hb hproven hput ih => exact .putTxhash ih hb hproven hput
  | putProof _ hb hacc ih => exact .putProof ih hb hacc
  | addBlock _ hadd hr ih => exact .addBlock ih hadd hr

theorem RefRun.ledger (h : RefRun E ok s) : Ledger E s := (nodeOk_of_opReach h.opReach).toLedger

/-- Whatever the node hears, it is done in such operations. -/
theorem kept_refRun (E : Env D) (B : Brought D) :
    Kept E (fun _ => False) B (RefRun E fun _ _ _ => True) where
  still hs h := .still h hs
  publish _ hb hs h := .publish h hb hs
  recheckPending _ hs h := .recheckPending h hs
  addPending _ hok hs h := .addPending h hok hs
  dropPending _ hs h := .dropPending h hs
  putTx _ hb hproven hok _ hplaced hput h := by
    rcases hplaced.origin with ⟨-, hmade⟩ | ⟨-, hrefs, hlen⟩
    · exact .resolve h hb hproven hok hmade trivial hput
    · exact .putTx h hb hproven hok hrefs hlen hput
  putTxhash _ hb hproven _ _ hput h := .putTxhash h hb hproven hput
  putProof _ hb hacc h := .putProof h hb hacc
  addBlock _ hadd _ hr h := .addBlock h hadd hr

theorem refRun_of_nodeReach (h : NodeReach E s) : RefRun E (fun _ _ _ => True) s := by
  induction h with
  | start sha merkle nonce2 tailer now opts => exact .start sha merkle nonce2 tailer now opts
  | @step s s' event _ hstep ih =>
    exact ((nodeStep_moves (kept_refRun E _) ih.ledger event
      (event.fillsClean_false E s) le_rfl).of_ok hstep).keeps ih

-- ---------------------------------------------------------------------------
-- The refs that are stored
-- ---------------------------------------------------------------------------

/-- The refs of every transaction in a block pass. -/
structure RefsPass (s : State D) : Prop extends HeadersOk s where
  genesis_prev : (s.blk 0).prev = none
  pass : ∀ (b i j : Nat) (tx : Tx D) (refs : List InputRef), b < s.numBlocks →
    (s.shardOf b i).u j = .tx tx refs → checkRefs s b refs = .none ∧ refs.length = numInputs tx

omit [Digest D] [DecidableEq D] in
theorem RefsPass.same (h : RefsPass s) (hsame : SameSlots s s') : RefsPass s' where
  toHeadersOk := h.toHeadersOk.congr hsame.numBlocks hsame.header
  genesis_prev := (congrArg Block.prev (hsame.header 0) :).trans h.genesis_prev
  pass b i j tx refs hb hu := by
    rw [hsame.numBlocks] at hb
    rw [hsame.slot] at hu
    rw [checkRefs_header hsame.header]
    exact h.pass b i j tx refs hb hu

omit [Digest D] [DecidableEq D] in
/-- A slot is filled with a transaction whose refs pass, or with no transaction. -/
theorem RefsPass.slotPut {x : Slot D} (h : RefsPass s) (hput : SlotPut s s' b shardnum txoff x)
    (hx : ∀ tx refs, x = .tx tx refs → checkRefs s b refs = .none ∧ refs.length = numInputs tx) :
    RefsPass s' where
  toHeadersOk := h.toHeadersOk.congr hput.numBlocks hput.header
  genesis_prev := (congrArg Block.prev (hput.header 0) :).trans h.genesis_prev
  pass y i j tx refs hy hu := by
    rw [hput.numBlocks] at hy
    rw [checkRefs_header hput.header]
    rw [hput.slot] at hu
    split_ifs at hu with hall
    · exact hall.1 ▸ hx tx refs hu
    · exact h.pass y i j tx refs hy hu

omit [Digest D] [DecidableEq D] in
/-- What comes before a block is a block. -/
theorem RefsPass.prev_lt (h : RefsPass s) {p : Nat} (hb : b < s.numBlocks)
    (hp : (s.blk b).prev = some p) : p < s.numBlocks := by
  rcases Nat.eq_zero_or_pos b with rfl | hpos
  · rw [h.genesis_prev] at hp
    exact absurd hp (by simp)
  · obtain ⟨p', hp', hpb, -⟩ := h.has_prev b hpos hb
    obtain rfl := Option.some.inj (hp.symm.trans hp')
    exact hpb.trans hb

omit [Digest D] [DecidableEq D] in
/-- A new block does not change what refs are good for in the others. -/
theorem RefsPass.checkRefs_sew (h : RefsPass s) {prev : Nat} {nb : NewBlock D}
    (hprev : prev < s.numBlocks) (hb : b < s.numBlocks) (refs : List InputRef) :
    checkRefs (sewBlock s prev nb) b refs = checkRefs s b refs := by
  have hold : ∀ x, x < s.numBlocks → (sewBlock s prev nb).blk x = s.blk x :=
    fun x hx => blk_sewBlock_old hprev (Nat.ne_of_lt hx)
  have hanc : ∀ n x, x < s.numBlocks →
      blockAncestor (sewBlock s prev nb) x n = blockAncestor s x n ∧
        ∀ a, blockAncestor s x n = some a → a < s.numBlocks := by
    intro n
    induction n with
    | zero => exact fun x hx => ⟨rfl, fun a ha => Option.some.inj ha ▸ hx⟩
    | succ n ih =>
      intro x hx
      unfold blockAncestor
      rw [hold x hx]
      cases hp : (s.blk x).prev with
      | none => exact ⟨rfl, fun a ha => absurd ha (by simp)⟩
      | some p => exact ih p (h.prev_lt hx hp)
  have hone : checkRef (sewBlock s prev nb) b = checkRef s b := by
    funext ref
    obtain ⟨heq, hlt⟩ := hanc ref.blocksAgo.toNat b hb
    unfold checkRef
    rw [heq]
    cases ha : blockAncestor s b ref.blocksAgo.toNat with
    | none => rfl
    | some a =>
      dsimp only
      rw [hold a (hlt a ha), hold b hb]
  unfold checkRefs
  rw [hone]

omit [Digest D] in
theorem RefsPass.sew (h : RefsPass s) {prev : Nat} {nb : NewBlock D} (hadd : Addable s prev nb) :
    RefsPass (sewBlock s prev nb) where
  toHeadersOk := h.toHeadersOk.sew hadd
  genesis_prev := by
    rw [blk_sewBlock_old hadd.prev_lt (Nat.ne_of_lt h.genesis.1)]
    exact h.genesis_prev
  pass x i j tx refs hx hu := by
    rw [(sewBlock_same s prev nb).1] at hx
    rw [slot_sewBlock nb hadd.prev_lt] at hu
    split_ifs at hu with hnew
    have hlt : x < s.numBlocks := by omega
    rw [h.checkRefs_sew hadd.prev_lt hlt]
    exact h.pass x i j tx refs hlt hu

theorem refsPass_startNode (E : Env D) (sha merkle : D) (nonce2 : Bytes 13) (tailer : BlockTailer)
    (now : UInt32) (opts : FeeOptions) :
    RefsPass (startNode (genesisBlock sha merkle nonce2 tailer) now opts) where
  toHeadersOk := headersOk_of_nodeReach (E := E) (.start sha merkle nonce2 tailer now opts)
  genesis_prev := rfl
  pass b i j tx refs _ hu := by
    rw [slot_startNode] at hu
    exact absurd hu (by simp)

/-- As long as hashes are only resolved within the horizon, all refs pass. -/
theorem refsPass_of_refRun (h : RefRun E InHorizon s) : RefsPass s := by
  have hput : ∀ {s s' : State D} {source : Option Nat} {b shardnum txoff : Nat} {tx : Tx D}
      {refs : List InputRef}, Ledger E s → RefsPass s →
      Proven E.crypto (s.blk b) shardnum txoff (hashTxAndRefs E.crypto tx refs) →
      checkRefs s b refs = .none → refs.length = numInputs tx →
      putTxInShard E s source b shardnum txoff tx refs = .ok s' → RefsPass s' := by
    intro s s' source b shardnum txoff tx refs hl hpass hproven hrefs hlen hput
    rcases putTxInShard_slot hl hproven hput with rfl | hslot
    · exact hpass
    · refine hpass.slotPut hslot fun tx' refs' heq => ?_
      injection heq with htx hrefs'
      exact htx ▸ hrefs' ▸ ⟨hrefs, hlen⟩
  induction h with
  | start sha merkle nonce2 tailer now opts => exact refsPass_startNode E ..
  | still _ hs ih => exact ih.same hs.toSameBlocks.sameSlots
  | publish _ _ hs ih => exact ih.same ((publishComplaint_frame (.refl E _) _ _ _).of_ok hs).sameSlots
  | recheckPending _ hs ih => exact ih.same ((recheckPendingTxs_frame (.refl E _)).of_ok hs).sameSlots
  | addPending _ hok hs ih =>
    exact ih.same ((addPendingTx_frame (.refl E _) (.inr hok)).of_ok hs).sameSlots
  | dropPending _ hs ih => exact ih.same ((dropPendingTx_frame (.refl E _) _).of_ok hs).sameSlots
  | putTx h _ hproven _ hrefs hlen hput' ih => exact hput h.ledger ih hproven hrefs hlen hput'
  | resolve h hb hproven _ hmade hin hput' ih =>
    refine hput h.ledger ih hproven ?_ (forall₂_of_mapM hmade).length_eq.symm hput'
    exact (h.ledger.checkRefs_made_iff ih.toHeadersOk hb hmade).mpr hin
  | putTxhash h _ hproven hput' ih =>
    rcases putTxhashInShard_slot h.ledger hproven hput' with heq | hslot
    · exact heq ▸ ih
    · exact ih.slotPut hslot fun tx refs heq => absurd heq (by simp)
  | putProof _ _ _ ih => exact ih.same (putProofInShard_sameSlots _ _ _)
  | addBlock _ hadd hr ih => exact (ih.sew hadd).same (blockAdd_sameSlots hr)

/-- `check_tx_refs` returns for refs that pass. -/
theorem checkTxRefs_ok (C : Crypto D) (h : checkRefs s b refs = .none) (tx : Tx D) :
    ∃ r, checkTxRefs C s b tx refs = .ok r := by
  have hfrom : ∀ (l : List (Input D × InputRef)) (i : Nat) (unknown : Option (Nat × BlockId)),
      (∀ p ∈ l, p.2 ∈ refs) → ∃ r, checkTxRefsFrom C s b l i unknown = .ok r := by
    intro l
    induction l with
    | nil =>
      intro i unknown _
      cases unknown with
      | none => exact ⟨_, rfl⟩
      | some bad => exact ⟨_, rfl⟩
    | cons p rest ih =>
      intro i unknown hmem
      obtain ⟨inp, ref⟩ := p
      have hpass := checkRefs_eq_none.mp h ref (hmem _ List.mem_cons_self)
      have hrest := fun p hp => hmem p (List.mem_cons_of_mem _ hp)
      unfold checkTxRefsFrom referredTo
      unfold checkRef at hpass
      cases ha : blockAncestor s b ref.blocksAgo.toNat with
      | none =>
        rw [ha] at hpass
        exact absurd hpass (by simp)
      | some a =>
        rw [Option.map_some]
        cases txrefhashInShard C (s.shardOf a ref.shard.toNat) ref.txoff.toNat with
        | none => exact ih _ _ hrest
        | some e =>
          dsimp only
          split_ifs
          · exact ⟨_, rfl⟩
          · exact ih _ _ hrest
  unfold checkTxRefs assert
  rw [if_pos (decide_eq_true h)]
  exact hfrom _ 0 none fun p hp => (List.of_mem_zip hp).2

/-- **Input references stay within the horizon**, as long as hashes are resolved in blocks that
are within the horizon of what their transactions spend: the refs of every transaction in a
block pass `check_refs`, and `check_tx_refs` returns whenever the transaction is looked at again.
The refs made for the next one pass exactly if its block is within the horizon, too. -/
theorem refs_pass (h : RefRun E InHorizon s) (hb : b < s.numBlocks) :
    (∀ (i j : Nat) (tx : Tx D) (refs : List InputRef), (s.shardOf b i).u j = .tx tx refs →
      checkRefs s b refs = .none ∧
        ∀ s', SameSlots s s' → ∃ r, checkTxRefs E.crypto s' b tx refs = .ok r) ∧
    ∀ (tx : Tx D) (refs : List InputRef), createRefs s b tx 0 = some refs →
      (checkRefs s b refs = .none ↔ InHorizon s b tx) := by
  have hpass := refsPass_of_refRun h
  refine ⟨fun i j tx refs hu => ?_, fun tx refs hmade => ?_⟩
  · have hrefs := (hpass.pass b i j tx refs hb hu).1
    refine ⟨hrefs, fun s' hsame => checkTxRefs_ok E.crypto ?_ tx⟩
    rw [checkRefs_header hsame.header]
    exact hrefs
  · exact h.ledger.checkRefs_made_iff hpass.toHeadersOk hb hmade

/-- A block with a payment and what spends it. -/
def samplePaidFee : NewBlock IdealDigest := (sampleBlock .zero 1 4 samplePair).toNewBlock idealCrypto

theorem addable_samplePaidFee : Addable sampleNode 0 samplePaidFee where
  prev_lt := by decide
  shardOrder := rfl
  depth := rfl
  expLow := by decide
  expHigh := by decide
  difficulty := by decide
  fresh := by decide

/-- A proof is stored before the slot is filled. -/
theorem RefRun.withProof (h : RefRun E ok s) (hb : b < s.numBlocks) {proof : Proof D}
    {e : TxRefHash D} (hacc : checkProofByhash E.crypto proof (s.blk b) e = true) :
    RefRun E ok (putProofInShard s b proof) ∧ b < (putProofInShard s b proof).numBlocks ∧
      Proven E.crypto ((putProofInShard s b proof).blk b) proof.pos.shard.toNat
        proof.pos.txoff.toNat e := by
  have hsame := putProofInShard_sameSlots s b proof
  refine ⟨.putProof h hb hacc, hsame.numBlocks ▸ hb, proof, rfl, rfl, ?_⟩
  rw [← hacc]
  exact checkProofByhash_congr (congrArg Block.hdr (hsame.header b) :)
    (congrArg Block.shardNums (hsame.header b) :) (congrArg Block.merkles (hsame.header b) :) _ _

/-- The proof of what the block holds. -/
def samplePairProof (i : Nat) : Proof IdealDigest := proofOf idealCrypto .zero 0 samplePair i

/-- The hash of what spends the payment is resolved in time. -/
theorem refs_pass_sample : ∃ s : State IdealDigest, RefRun idealEnv InHorizon s ∧
    (s.shardOf 1 0).u 1 = .tx sampleFee [⟨0, 0, 0, 0⟩] ∧
    checkRefs s 1 [⟨0, 0, 0, 0⟩] = .none := by
  have hrun : (blockAdd sampleNode 0 samplePaidFee).toOption.any (fun r =>
      decide (1 < r.1.numBlocks) &&
      checkProof idealCrypto (samplePairProof 0) (r.1.blk 1) samplePayment [] &&
      (putTxInShard idealEnv (putProofInShard r.1 1 (samplePairProof 0)) none 1 0 0
          samplePayment []).toOption.any fun s =>
        decide (1 < s.numBlocks) &&
        checkProof idealCrypto (samplePairProof 1) (s.blk 1) sampleFee [⟨0, 0, 0, 0⟩] &&
        decide (createRefs (putProofInShard s 1 (samplePairProof 1)) 1 sampleFee 0
          = some [⟨0, 0, 0, 0⟩]) &&
        decide (txhashGettxAncestor (putProofInShard s 1 (samplePairProof 1)) samplePaid.input 1
          = some (1, 0, 0)) &&
        decide (((putProofInShard s 1 (samplePairProof 1)).blk 1).tailer.timestamp = 10) &&
        (putTxInShard idealEnv (putProofInShard s 1 (samplePairProof 1)) none 1 0 1
            sampleFee [⟨0, 0, 0, 0⟩]).toOption.any fun s =>
          decide (1 < s.numBlocks) && decide ((s.shardOf 1 0).u 1 = .tx sampleFee [⟨0, 0, 0, 0⟩]))
      = true := by
    decide +kernel
  obtain ⟨r, hadd, hrest⟩ := (Option.any_eq_true _ _).mp hrun
  simp only [Bool.and_eq_true, decide_eq_true_eq] at hrest
  obtain ⟨⟨hb, hproof⟩, hrest⟩ := hrest
  obtain ⟨s₁, hput, hrest⟩ := (Option.any_eq_true _ _).mp hrest
  simp only [Bool.and_eq_true, decide_eq_true_eq] at hrest
  obtain ⟨⟨⟨⟨⟨hb₁, hproof₁⟩, hmade⟩, hfound⟩, htime⟩, hrest⟩ := hrest
  obtain ⟨s, hresolve, hrest⟩ := (Option.any_eq_true _ _).mp hrest
  simp only [Bool.and_eq_true, decide_eq_true_eq] at hrest
  have hok : TxOk idealCrypto samplePayment ∧ TxOk idealCrypto sampleFee :=
    ⟨txOk_of_checkTx_none (s := sampleNode) (by decide +kernel),
      txOk_of_checkTx_none (s := sampleNode) (by decide +kernel)⟩
  have hin : InHorizon (putProofInShard s₁ 1 (samplePairProof 1)) 1 sampleFee := by
    intro inp hinp a i j ha
    obtain rfl : inp = samplePaid := List.mem_singleton.mp hinp
    obtain ⟨rfl, -⟩ := Prod.mk.inj (Option.some.inj (ha.symm.trans hfound))
    rw [htime]
    exact Nat.not_lt.mpr (by decide)
  have hadded : RefRun idealEnv InHorizon r.1 :=
    .addBlock (.start _ _ _ _ _ _) addable_samplePaidFee (eq_ok_of_toOption hadd)
  obtain ⟨hadded, hb, hproven⟩ := hadded.withProof hb hproof
  have hpaid : RefRun idealEnv InHorizon s₁ :=
    .putTx hadded hb hproven hok.1 rfl rfl (eq_ok_of_toOption hput)
  obtain ⟨hpaid, hb₁, hproven₁⟩ := hpaid.withProof hb₁ hproof₁
  have hspent : RefRun idealEnv InHorizon s :=
    .resolve hpaid hb₁ hproven₁ hok.2 hmade hin (eq_ok_of_toOption hresolve)
  exact ⟨s, hspent, hrest.2, ((refs_pass hspent hrest.1).1 0 1 _ _ hrest.2).1⟩

/-- A block more than an hour ahead of the clock spends a payment from 30 days before it. -/
def sampleLate : BlockParts IdealDigest :=
  { lightBlock (hashBlock idealCrypto forkFirst) 2 8 [(sampleOnce, [⟨1, 0, 0, 0⟩])] with
    tailer := ⟨432100, 0x1effffff, 0⟩ }

/-- The node learns of it, of the transaction by itself, and then of the hash in the block. -/
def sampleLateEvents : List (NodeEvent IdealDigest) :=
  [sampleHeader forkFirst, samplePacket forkFirst [(samplePayment, [])] 0 (samplePayment, []),
    .clock 428410, sampleHeader sampleLate, .packet ⟨0, false⟩ (.tx sampleOnce),
    .packet ⟨0, false⟩ (.hashesInBlock
      ⟨proofOf idealCrypto (hashBlock idealCrypto sampleLate) 0 [(sampleOnce, [⟨1, 0, 0, 0⟩])] 0,
        hashTxAndRefs idealCrypto sampleOnce [⟨1, 0, 0, 0⟩]⟩)]

/-- The refs made for it do not pass. -/
theorem refs_beyond_horizon : ¬ ∀ s : State IdealDigest, NodeReach idealEnv s →
    ∀ (b i j : Nat) (tx : Tx IdealDigest) (refs : List InputRef), b < s.numBlocks →
      (s.shardOf b i).u j = .tx tx refs → checkRefs s b refs = .none := by
  intro hall
  have hrun : (nodeRun idealEnv sampleNode sampleLateEvents).toOption.any (fun s =>
      decide (2 < s.numBlocks) && decide ((s.shardOf 2 0).u 0 = .tx sampleOnce [⟨1, 0, 0, 0⟩]) &&
        decide (checkRefs s 2 [⟨1, 0, 0, 0⟩] = .refBadBlocksAgo)) = true := by
    decide +kernel
  obtain ⟨s, hs, hfacts⟩ := (Option.any_eq_true _ _).mp hrun
  simp only [Bool.and_eq_true, decide_eq_true_eq] at hfacts
  obtain ⟨⟨hb, hu⟩, hbad⟩ := hfacts
  have hreach : NodeReach idealEnv s := nodeReach_sampleNode.run (eq_ok_of_toOption hs)
  have hpass := hall s hreach 2 0 0 _ _ hb hu
  rw [hbad] at hpass
  exact absurd hpass (by decide)

end Pettycoin
