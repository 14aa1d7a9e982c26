import Mathlib.Algebra.Order.BigOperators.Group.List
import Pettycoin.Lib.InsertLog
import Pettycoin.Generate
import Pettycoin.NodeHeads
import Pettycoin.Reorg

/-!
# Pettycoin — the node's end of the generator

`generating.c`: the node starts the generator on the longest known block, tells it
what is pending, and then of every transaction that is inserted. What it has not
written yet is a queue of updates.

As long as the generator runs, the queue takes its arrays to those of the pending
block (`generator_mirrors_pending`).

* `hear_insertPendingTx` — an insertion and its announcement;
* `inStep_of_genRun` — the queue leads to the pending block, over every run;
* `Step.genRun` — the steps of the node are such a run;
* `generator_mirrors_pending` — what the generator has once it has read all.
-/

namespace Pettycoin

open ExceptRules InsertLog WorkingBlock

variable {D : Type} [Digest D] [DecidableEq D]

-- ---------------------------------------------------------------------------
-- generating.c
-- ---------------------------------------------------------------------------

/-- `tx->hdr.features`. -/
def txFeatures : Tx D → UInt8
  | .normal t => t.features
  | .fromGateway t => t.features
  | .toGateway t => t.features
  | .claim t => t.features

/-- `add_update()`: what is put into the queue. -/
def addUpdate (C : Crypto D) (pend : Nat → List (PendingTx D)) (shard txoff : Nat) :
    Except GenFault (GenUpdate D) := do
  match (pend shard)[txoff]? with
  | none => .error (.shared .nullPointer)
  | some t =>
    let update : GenUpdate D :=
      { shard := UInt16.ofNat shard, txoff := UInt8.ofNat txoff
        features := (txFeatures t.tx).toUInt32, hashes := hashTxAndRefs C t.tx t.refs }
    check (update.shard.toNat == shard) .overflow
    check (update.txoff.toNat == txoff) .overflow
    .ok update

/-- `init_updates()`: every pending transaction, shard by shard. -/
def initUpdates (C : Crypto D) (pend : Nat → List (PendingTx D)) :
    Except GenFault (List (GenUpdate D)) :=
  ((List.range pendShards).flatMap fun shard =>
    (List.range (pend shard).length).map fun i => (shard, i)).mapM fun place =>
      addUpdate C pend place.1 place.2

/-- `tell_generator_new_pending()`, while there is a generator. -/
def tellGeneratorNewPending (C : Crypto D) (s : State D) (updates : List (GenUpdate D))
    (shard txoff : Nat) : Except GenFault (List (GenUpdate D)) := do
  let update ← addUpdate C s.pending.pend shard txoff
  .ok (updates ++ [update])

/-- `make_prev_txhashes()`: `NULL` (`none`) if a shard is not known. -/
def makePrevTxhashes (C : Crypto D) (s : State D) (prevBlock : BlockId) (myAddr : Address) :
    Option (List UInt8) :=
  ((prevTxhashBlocks s protocolPrevBlockTxhashes (some prevBlock)).flatMap fun b =>
    (List.range (s.blk b).numShards).map fun j => (b, j)).mapM fun place =>
      if shardAllKnown (s.shardOf place.1 place.2) then
        some (prevTxhash C myAddr (s.shardOf place.1 place.2))
      else none

/-- What the generator reads first of what `exec_generator` and `send_go_byte` write. -/
def withGoByte (l : List UInt8) : Bytes ((UInt32.ofNat l.length).toNat + 1) :=
  ⟨(l ++ [0]).take ((UInt32.ofNat l.length).toNat + 1), by
    have hle : (UInt32.ofNat l.length).toNat ≤ l.length := by
      rw [UInt32.toNat_ofNat']
      exact Nat.mod_le ..
    rw [List.length_take, List.length_append, List.length_singleton]
    omega⟩

/-- `exec_generator()`: what the generator is started with, on the longest known block. -/
def execGenerator (C : Crypto D) (s : State D) (rewardAddr : Address) (nonce : List UInt8) :
    Res (GenArgs D) := do
  let last := s.longestKnowns.headD 0
  let prevTxhashes := (makePrevTxhashes C s last rewardAddr).getD []
  let difficulty ← getDifficulty s last
  .ok { feesTo := rewardAddr, difficulty := difficulty, prevHash := (s.blk last).sha
        numPrevTxhashes := UInt32.ofNat prevTxhashes.length, depth := (s.blk last).hdr.depth + 1
        shardOrder := (s.blk last).hdr.shardOrder, nonce := some nonce
        prevTxhashes := withGoByte prevTxhashes }

-- ---------------------------------------------------------------------------
-- The pending arrays
-- ---------------------------------------------------------------------------

variable {E : Env D} {g : Slot D → Prop} {s s' : State D} {pend : Nat → List (PendingTx D)}

/-- No shard of the pending block has more than 255 transactions, and there are no others. -/
structure PendOk (pend : Nat → List (PendingTx D)) : Prop where
  bounded : ∀ shard, (pend shard).length ≤ 255
  outside : ∀ shard, pendShards ≤ shard → pend shard = []

omit [Digest D] [DecidableEq D] in
theorem pendOk_new : PendOk (newPendingBlock : PendingBlock D).pend :=
  ⟨fun _ => Nat.zero_le _, fun _ _ => rfl⟩

omit [Digest D] [DecidableEq D] in
/-- Replacing one array. -/
theorem PendOk.update (h : PendOk pend) {shard : Nat} (hshard : shard < pendShards)
    {l : List (PendingTx D)} (hl : l.length ≤ 255) : PendOk (Function.update pend shard l) := by
  refine ⟨fun i => ?_, fun i hi => ?_⟩
  · by_cases hi : i = shard
    · subst hi
      rwa [Function.update_self]
    · rw [Function.update_of_ne hi]
      exact h.bounded i
  · rw [Function.update_of_ne (by omega)]
    exact h.outside i hi

omit [Digest D] [DecidableEq D] in
theorem PendOk.insertion (h : PendOk pend) {ins : Insertion (PendingTx D)}
    (hfits : ins.Fits pendShards 255 pend) : PendOk (ins.apply pend) :=
  h.update hfits.array_lt (List.length_insertIdx_le_succ.trans hfits.room)

omit [DecidableEq D] in
/-- The binary search stays within the array. -/
theorem findPendingFrom_le {pend : List (PendingTx D)} {tx : Tx D} {fuel pos stop : Nat}
    (hpos : pos ≤ stop) : (findPendingFrom E pend tx fuel pos stop).2 ≤ stop := by
  induction fuel generalizing pos stop with
  | zero => exact hpos
  | succ fuel ih =>
    unfold findPendingFrom
    dsimp only
    split_ifs with hlt
    · split
      · exact hpos
      · split
        · exact (ih (by omega)).trans (by omega)
        · exact ih (by omega)
        · exact hpos
    · exact hpos

omit [Digest D] [DecidableEq D] in
theorem shardOfTx_lt (C : Crypto D) (past : TxFromGateway → GatewayPayment) (tx : Tx D) (b : Nat) :
    shardOfTx C past tx (nextShardOrder b) < pendShards := by
  unfold shardOfTx shardOf
  rw [Nat.shiftRight_eq_div_pow]
  have hhigh := ((txHomeAddress C past tx).1[0]?.getD 0).toNat_lt
  have hlow := ((txHomeAddress C past tx).1[1]?.getD 0).toNat_lt
  show _ / 2 ^ 14 < 4
  omega

/-- What `insert_pending_tx` does to the arrays, and what it tells of it. -/
theorem insertPendingTx_spec {tx : Tx D} {kept : Bool} (h : insertPendingTx E s tx = .ok (s', kept))
    (hs : PendOk s.pending.pend) :
    (s'.pending.pend = s.pending.pend ∧ s'.events = s.events) ∨
      ∃ ins : Insertion (PendingTx D), ins.Fits pendShards 255 s.pending.pend ∧
        s'.pending.pend = ins.apply s.pending.pend ∧
        s'.events = s.events ++ [.tellGeneratorNewPending ins.array ins.pos] := by
  unfold insertPendingTx at h
  dsimp only at h
  split_ifs at h with hfull
  · obtain ⟨rfl, -⟩ := Prod.mk.inj (Except.ok.inj h)
    exact .inl ⟨rfl, rfl⟩
  · obtain ⟨-, -, h⟩ := of_bind_eq_ok h
    split at h
    · obtain ⟨rfl, -⟩ := Prod.mk.inj (Except.ok.inj h)
      exact .inl ⟨rfl, rfl⟩
    · rename_i refs _
      obtain ⟨rfl, -⟩ := Prod.mk.inj (Except.ok.inj h)
      exact .inr ⟨⟨_, _, ⟨tx, refs⟩⟩, ⟨shardOfTx_lt E.crypto E.past tx _,
        findPendingFrom_le (Nat.zero_le _), Nat.lt_of_le_of_ne (hs.bounded _) hfull⟩, rfl, rfl⟩

omit [DecidableEq D] in
theorem inputhashAddTx_pending (onPending : Bool) (tx : Tx D) :
    (inputhashAddTx E s onPending tx).pending = s.pending := by
  unfold inputhashAddTx
  generalize txInputs tx = inputs
  induction inputs generalizing s with
  | nil => rfl
  | cons inp inputs ih => exact ih

theorem addPendingTxToHashes_pending {tx : Tx D} (h : addPendingTxToHashes E s tx = .ok s') :
    s'.pending = s.pending := by
  unfold addPendingTxToHashes at h
  obtain ⟨-, -, h⟩ := of_bind_eq_ok h
  obtain rfl := Except.ok.inj h
  show (recordInputs E s true tx).pending = s.pending
  unfold recordInputs
  split_ifs
  · exact inputhashAddTx_pending true tx
  · rfl

/-- `add_pending_tx` changes the arrays by an insertion only. -/
theorem addPendingTx_pend {tx : Tx D} {r : AddPending} (h : addPendingTx E s tx = .ok (s', r)) :
    s'.pending.pend = s.pending.pend ∨
      ∃ s₁ kept, insertPendingTx E s tx = .ok (s₁, kept) ∧ s'.pending.pend = s₁.pending.pend := by
  have hhashes : ∀ {s₁ : State D} {kept : Bool} {a b : AddPending},
      (if !kept then Except.ok (s₁, a)
        else do
          let s₂ ← addPendingTxToHashes E s₁ tx
          .ok (s₂, b)) = .ok (s', r) → s'.pending.pend = s₁.pending.pend := by
    intro s₁ kept a b h
    split_ifs at h
    · obtain ⟨rfl, -⟩ := Prod.mk.inj (Except.ok.inj h)
      rfl
    · obtain ⟨s₂, hs₂, h⟩ := of_bind_eq_ok h
      obtain ⟨rfl, -⟩ := Prod.mk.inj (Except.ok.inj h)
      rw [addPendingTxToHashes_pending hs₂]
  have hkeep : ∀ {ierr : InputEcode} {bad : Nat}, keepPendingTx E s tx ierr bad = .ok (s', r) →
      s'.pending.pend = s.pending.pend ∨
        ∃ s₁ kept, insertPendingTx E s tx = .ok (s₁, kept) ∧ s'.pending.pend = s₁.pending.pend := by
    intro ierr bad h
    unfold keepPendingTx at h
    split_ifs at h with hfee hunknown
    · obtain ⟨rfl, -⟩ := Prod.mk.inj (Except.ok.inj h)
      exact .inl rfl
    · obtain ⟨⟨s₁, kept⟩, hadd, h⟩ := of_bind_eq_ok h
      obtain ⟨rfl, -⟩ := Prod.mk.inj (Except.ok.inj hadd)
      dsimp only at h
      have hpend := hhashes h
      exact .inl hpend
    · obtain ⟨⟨s₁, kept⟩, hadd, h⟩ := of_bind_eq_ok h
      exact .inr ⟨s₁, kept, hadd, hhashes h⟩
  unfold addPendingTx at h
  dsimp only at h
  split_ifs at h
  · obtain ⟨rfl, -⟩ := Prod.mk.inj (Except.ok.inj h)
    exact .inl rfl
  · obtain ⟨rfl, -⟩ := Prod.mk.inj (Except.ok.inj h)
    exact .inl rfl
  · obtain ⟨⟨ierr, bad⟩, -, h⟩ := of_bind_eq_ok h
    dsimp only at h
    split at h
    · exact hkeep h
    · exact hkeep h
    · obtain ⟨rfl, -⟩ := Prod.mk.inj (Except.ok.inj h)
      exact .inl rfl

theorem insertPendingTx_pendOk {tx : Tx D} {kept : Bool}
    (h : insertPendingTx E s tx = .ok (s', kept)) (hs : PendOk s.pending.pend) :
    PendOk s'.pending.pend := by
  rcases insertPendingTx_spec h hs with ⟨hpend, -⟩ | ⟨ins, hfits, hpend, -⟩
  · rw [hpend]
    exact hs
  · rw [hpend]
    exact hs.insertion hfits

theorem addPendingTx_pendOk {tx : Tx D} {r : AddPending} (h : addPendingTx E s tx = .ok (s', r))
    (hs : PendOk s.pending.pend) : PendOk s'.pending.pend := by
  rcases addPendingTx_pend h with hpend | ⟨s₁, kept, hins, hpend⟩
  · rw [hpend]
    exact hs
  · rw [hpend]
    exact insertPendingTx_pendOk hins hs

/-- `recheck_pending_txs` leaves the arrays alone, or shuts the generator down. -/
theorem recheckPendingTxs_pend (h : recheckPendingTxs E s = .ok s') :
    s'.pending.pend = s.pending.pend ∨
      (PendOk s'.pending.pend ∧ ∃ s₁ : State D, s' = s₁.emit .restartGenerating) := by
  unfold recheckPendingTxs at h
  dsimp only at h
  split_ifs at h
  · obtain rfl := Except.ok.inj h
    exact .inl rfl
  · obtain rfl := Except.ok.inj h
    exact .inl rfl
  · obtain ⟨s₁, hs₁, h⟩ := of_bind_eq_ok h
    obtain rfl := Except.ok.inj h
    have hok : PendOk s₁.pending.pend := by
      refine foldlM_preserves (P := fun s : State D => PendOk s.pending.pend)
        (fun s₂ s₃ tx _ h₂ h₃ => ?_) pendOk_new hs₁
      obtain ⟨⟨s₄, r⟩, hadd, h₃⟩ := of_bind_eq_ok h₃
      obtain rfl := Except.ok.inj h₃
      exact addPendingTx_pendOk hadd h₂
    exact .inr ⟨hok, s₁, rfl⟩

/-- So does `drop_pending_tx`. -/
theorem dropPendingTx_pend {tx : Tx D} (h : dropPendingTx E s tx = .ok s')
    (hs : PendOk s.pending.pend) : s'.pending.pend = s.pending.pend ∨
      (PendOk s'.pending.pend ∧ ∃ s₁ : State D, s' = s₁.emit .restartGenerating) := by
  unfold dropPendingTx at h
  dsimp only at h
  split_ifs at h
  · obtain rfl := Except.ok.inj h
    exact .inl rfl
  · obtain rfl := Except.ok.inj h
    exact .inr ⟨hs.update (shardOfTx_lt E.crypto E.past tx _)
      ((List.length_eraseIdx_le ..).trans (hs.bounded _)), _, rfl⟩
  · obtain rfl := Except.ok.inj h
    exact .inl rfl

/-- What each step does to the arrays: an insertion, or something that shuts the generator
down, or nothing. -/
theorem Step.pend_cases (h : Step E g s s') (hs : PendOk s.pending.pend) :
    s'.pending.pend = s.pending.pend ∨
      (∃ tx s₁ kept, insertPendingTx E s tx = .ok (s₁, kept) ∧
        s'.pending.pend = s₁.pending.pend) ∨
      (PendOk s'.pending.pend ∧ ∃ s₁ : State D, s' = s₁.emit .restartGenerating) := by
  cases h with
  | quiet hq => exact .inl hq.pend
  | recheckPending h => exact (recheckPendingTxs_pend h).imp_right .inr
  | addPending tx r _ h =>
    exact (addPendingTx_pend h).imp_right fun ⟨s₁, kept, hins⟩ => .inl ⟨tx, s₁, kept, hins⟩
  | dropPending tx h => exact (dropPendingTx_pend h hs).imp_right .inr
  | invalidate b complaint _ _ _ h => exact .inl (complaintOnAll_pending h).1
  | fillUnknown b shardnum txoff tx refs => exact .inl rfl
  | fillHash b shardnum txoff tx refs => exact .inl rfl
  | setHash b shardnum txoff h => exact .inl rfl
  | storeProofs b shardnum f => exact .inl rfl
  | sew prev nb _ => exact .inl (by rw [sewBlock_pending])

theorem Step.pendOk (h : Step E g s s') (hs : PendOk s.pending.pend) : PendOk s'.pending.pend := by
  rcases h.pend_cases hs with hpend | ⟨tx, s₁, kept, hins, hpend⟩ | ⟨hok, -⟩
  · rw [hpend]
    exact hs
  · rw [hpend]
    exact insertPendingTx_pendOk hins hs
  · exact hok

theorem pendOk_of_nodeReach (h : NodeReach E s) : PendOk s.pending.pend :=
  h.preserves (P := fun s : State D => PendOk s.pending.pend)
    (fun _ _ _ _ _ _ => pendOk_new) fun _ _ _ hstep hs => hstep.pendOk hs

-- ---------------------------------------------------------------------------
-- The generator's arrays
-- ---------------------------------------------------------------------------

variable {C : Crypto D} {w w' : WorkingBlock D} {queue queue' : List (GenUpdate D)}
  {update : GenUpdate D}

/-- The hashes of what is pending in each shard. -/
def pendHashes (C : Crypto D) (pend : Nat → List (PendingTx D)) (shard : Nat) :
    List (TxRefHash D) :=
  (pend shard).map fun t => hashTxAndRefs C t.tx t.refs

/-- The hashes that the generator has of each shard. -/
def WorkingBlock.arrays (w : WorkingBlock D) (shard : Nat) : List (TxRefHash D) :=
  w.transHashes[shard]?.getD []

/-- The insertion an update stands for. -/
def GenUpdate.insertion (update : GenUpdate D) : Insertion (TxRefHash D) :=
  ⟨update.shard.toNat, update.txoff.toNat, update.hashes⟩

omit [Digest D] [DecidableEq D] in
theorem WorkingBlock.OfArgs.numShards_eq {args : GenArgs D} (h : w.OfArgs args) :
    w.numShards = 2 ^ args.shardOrder.toNat := by
  unfold WorkingBlock.numShards
  rw [h.shardOrder]

omit [DecidableEq D] in
/-- `add_tx` makes the insertion. -/
theorem addTx_insertion {args : GenArgs D} (h : w.Hashed C) (ha : w.OfArgs args)
    (hfits : update.insertion.Fits (2 ^ args.shardOrder.toNat) 255 w.arrays) :
    ∃ w', w.addTx C update = .ok w' ∧ w'.Hashed C ∧ w'.OfArgs args ∧
      w'.arrays = update.insertion.apply w.arrays := by
  have hcount := counted_of_get h.counted update.shard.toNat
  have hshard : update.shard.toNat < w.numShards := by
    rw [ha.numShards_eq]
    exact hfits.array_lt
  obtain ⟨w', hw', hhashed, hargs, htrans⟩ := addTx_of_fits h
    ⟨hshard, by rw [hcount]; exact hfits.room, by rw [hcount]; exact hfits.pos_le⟩
  refine ⟨w', hw', hhashed, hargs args ha, ?_⟩
  have happly : update.insertion.apply w.arrays = Function.update w.arrays update.shard.toNat
      ((w.arrays update.shard.toNat).insertIdx update.txoff.toNat update.hashes) := rfl
  funext i
  rw [happly]
  show (w'.transHashes[i]?).getD [] = _
  rw [htrans]
  show ((w.transHashes.modify _ _)[i]?).getD [] = _
  by_cases hi : update.shard.toNat = i
  · subst hi
    have hlt : update.shard.toNat < w.transHashes.length := by
      rw [w.transHashes_length]
      exact hshard
    rw [Function.update_self, List.getElem?_modify_eq]
    unfold WorkingBlock.arrays
    rw [List.getElem?_eq_getElem hlt]
    rfl
  · rw [Function.update_of_ne (Ne.symm hi), List.getElem?_modify_ne _ _ hi]
    rfl

omit [DecidableEq D] in
/-- The generator can read any queue that replays from its arrays. -/
theorem readAll_of_replays {args : GenArgs D} {target : Nat → List (TxRefHash D)} (h : w.Hashed C)
    (ha : w.OfArgs args) (hr : Replays (2 ^ args.shardOrder.toNat) 255 w.arrays
      (queue.map GenUpdate.insertion) target) :
    ∃ w', queue.foldlM (addTx C) w = .ok w' ∧ w'.Hashed C ∧ w'.OfArgs args ∧ w'.arrays = target := by
  induction queue generalizing w with
  | nil =>
    cases hr with
    | nil => exact ⟨w, rfl, h, ha, rfl⟩
  | cons update queue ih =>
    obtain ⟨hfits, hrest⟩ := hr.uncons
    obtain ⟨w₁, hw₁, hh₁, ha₁, harrays⟩ := addTx_insertion h ha hfits
    obtain ⟨w', hw', hh', ha', htarget⟩ := ih hh₁ ha₁ (harrays ▸ hrest)
    exact ⟨w', by rw [List.foldlM_cons, hw₁, ok_bind, hw'], hh', ha', htarget⟩

-- ---------------------------------------------------------------------------
-- Updates
-- ---------------------------------------------------------------------------

omit [DecidableEq D] in
/-- What `add_update` queues. -/
theorem addUpdate_ok {shard txoff : Nat} {t : PendingTx D} (ht : (pend shard)[txoff]? = some t)
    (hshard : shard < pendShards) (hoff : txoff < 255) :
    ∃ update, addUpdate C pend shard txoff = .ok update ∧
      update.insertion = ⟨shard, txoff, hashTxAndRefs C t.tx t.refs⟩ := by
  have hs : (UInt16.ofNat shard).toNat = shard := UInt16.toNat_ofNat_of_lt' (by
    have h4 : shard < 4 := hshard
    show shard < 65536
    omega)
  have ho : (UInt8.ofNat txoff).toNat = txoff := UInt8.toNat_ofNat_of_lt' (by
    show txoff < 256
    omega)
  unfold addUpdate
  rw [ht]
  dsimp only
  rw [check, if_pos (by rw [hs]; simp), ok_bind, check, if_pos (by rw [ho]; simp), ok_bind]
  refine ⟨_, rfl, ?_⟩
  unfold GenUpdate.insertion
  dsimp only
  rw [hs, ho]

omit [DecidableEq D] in
/-- The queue at the start fills the arrays. -/
theorem initUpdates_ok (C : Crypto D) (h : PendOk pend) :
    ∃ queue, initUpdates C pend = .ok queue ∧
      queue.map GenUpdate.insertion = fill (pendHashes C pend) pendShards := by
  have hplace : ∀ place ∈ (List.range pendShards).flatMap fun shard =>
        (List.range (pend shard).length).map fun i => (shard, i),
      ∃ update, addUpdate C pend place.1 place.2 = .ok update ∧
        some update.insertion = (pendHashes C pend place.1)[place.2]?.map fun a =>
          Insertion.mk place.1 place.2 a := by
    intro place hplace
    obtain ⟨shard, hshard, hplace⟩ := List.mem_flatMap.mp hplace
    obtain ⟨i, hi, rfl⟩ := List.mem_map.mp hplace
    rw [List.mem_range] at hshard hi
    have hget := List.getElem?_eq_getElem hi
    have hbound := h.bounded shard
    obtain ⟨update, hupdate, hins⟩ := addUpdate_ok (C := C) hget hshard (by omega)
    refine ⟨update, hupdate, ?_⟩
    unfold pendHashes
    rw [hins, List.getElem?_map, hget]
    rfl
  obtain ⟨queue, hqueue, hviews⟩ := mapM_ok hplace
  refine ⟨queue, hqueue, List.map_injective_iff.mpr (Option.some_injective _) ?_⟩
  rw [List.map_map, fill_eq_places]
  refine Eq.trans hviews ?_
  unfold pendHashes
  simp only [List.length_map]

-- ---------------------------------------------------------------------------
-- The node, the queue and the generator
-- ---------------------------------------------------------------------------

/-- A node that can start the generator: its pending block is as it should be, and its
longest known block has the shard order of all blocks. -/
structure Startable (s : State D) : Prop where
  pend : PendOk s.pending.pend
  shardOrder : (s.blk (s.longestKnowns.headD 0)).hdr.shardOrder = protocolInitialShardOrder

theorem startable_of_nodeReach (h : NodeReach E s) : Startable s :=
  ⟨pendOk_of_nodeReach h, (registry_of_nodeReach h).toLedger.shardOrder _⟩

/-- What the generator is told of the log of one call. -/
def hear (C : Crypto D) (s : State D) (queue : List (GenUpdate D)) :
    Event D → Except GenFault (List (GenUpdate D))
  | .tellGeneratorNewPending shard pos => tellGeneratorNewPending C s queue shard pos
  | _ => .ok queue

/-- The node while its generator runs, with the queue and the working block: transactions
are inserted into the pending block, the node does other things that leave its arrays alone
(`Step.pend_cases`), and the generator reads the queue and tries nonces, in any order. -/
inductive GenRun (E : Env D) : State D → List (GenUpdate D) → WorkingBlock D → Prop
  | start {s : State D} {args : GenArgs D} {queue : List (GenUpdate D)} {w : WorkingBlock D}
    (rewardAddr : Address) (nonce : List UInt8) (now : UInt32) : Startable s →
    execGenerator E.crypto s rewardAddr nonce = .ok args →
    initUpdates E.crypto s.pending.pend = .ok queue →
    generateStart E.crypto args now = .ok (some w) → GenRun E s queue w
  | insert {s s' : State D} {queue queue' : List (GenUpdate D)} {w : WorkingBlock D} {kept : Bool}
    (tx : Tx D) : GenRun E s queue w →
    insertPendingTx E s tx = .ok (s', kept) →
    (s'.events.drop s.events.length).foldlM (hear E.crypto s') queue = .ok queue' →
    GenRun E s' queue' w
  | meanwhile {s s' : State D} {queue : List (GenUpdate D)} {w : WorkingBlock D} :
    GenRun E s queue w → s'.pending.pend = s.pending.pend → GenRun E s' queue w
  | read {s : State D} {update : GenUpdate D} {queue : List (GenUpdate D)} {w w' : WorkingBlock D} :
    GenRun E s (update :: queue) w → w.addTx E.crypto update = .ok w' → GenRun E s queue w'
  | unsolved {s : State D} {queue : List (GenUpdate D)} {w w' : WorkingBlock D} (now : UInt32) :
    GenRun E s queue w → w.solveBlock E.crypto now = .ok (w', false) → GenRun E s queue w'

/-- The queue takes the generator's arrays to those of the pending block. -/
structure InStep (E : Env D) (s : State D) (queue : List (GenUpdate D)) (w : WorkingBlock D) :
    Prop where
  pend : PendOk s.pending.pend
  hashed : w.Hashed E.crypto
  ofArgs : ∃ args, w.OfArgs args ∧ args.shardOrder = protocolInitialShardOrder
  replays : Replays pendShards 255 w.arrays (queue.map GenUpdate.insertion)
    (pendHashes E.crypto s.pending.pend)

omit [DecidableEq D] in
/-- An insertion into the pending block is one into its hashes. -/
theorem fits_pendHashes {ins : Insertion (PendingTx D)} (h : ins.Fits pendShards 255 pend) :
    (Insertion.mk ins.array ins.pos (hashTxAndRefs C ins.val.tx ins.val.refs)).Fits pendShards 255
      (pendHashes C pend) := by
  refine ⟨h.array_lt, ?_, ?_⟩
  · unfold pendHashes
    rw [List.length_map]
    exact h.pos_le
  · unfold pendHashes
    rw [List.length_map]
    exact h.room

omit [Digest D] [DecidableEq D] in
/-- The transaction is where it was inserted. -/
theorem getElem?_apply {ins : Insertion (PendingTx D)} (h : ins.Fits pendShards 255 pend) :
    (ins.apply pend ins.array)[ins.pos]? = some ins.val := by
  unfold Insertion.apply
  rw [Function.update_self, List.getElem?_insertIdx_self, if_pos h.pos_le]

/-- **An insertion is announced**, and the queue stays in step. -/
theorem hear_insertPendingTx {tx : Tx D} {kept : Bool} (hs : PendOk s.pending.pend)
    (h : insertPendingTx E s tx = .ok (s', kept)) :
    ∃ more, (∀ queue, (s'.events.drop s.events.length).foldlM (hear E.crypto s') queue
        = .ok (queue ++ more)) ∧
      Replays pendShards 255 (pendHashes E.crypto s.pending.pend)
        (more.map GenUpdate.insertion) (pendHashes E.crypto s'.pending.pend) := by
  rcases insertPendingTx_spec h hs with ⟨hpend, hevents⟩ | ⟨ins, hfits, hpend, hevents⟩
  · refine ⟨[], fun queue => ?_, ?_⟩
    · rw [hevents, List.drop_length, List.append_nil]
      rfl
    · rw [hpend]
      exact .nil _
  · have hoff : ins.pos < 255 := lt_of_le_of_lt hfits.pos_le hfits.room
    obtain ⟨update, hupdate, hins⟩ := addUpdate_ok (C := E.crypto) (getElem?_apply hfits)
      hfits.array_lt hoff
    refine ⟨[update], fun queue => ?_, ?_⟩
    · rw [hevents, List.drop_left]
      show (do
        let queue ← tellGeneratorNewPending E.crypto s' queue ins.array ins.pos
        Except.ok queue) = _
      unfold tellGeneratorNewPending
      rw [hpend, hupdate]
      rfl
    · have happly : pendHashes E.crypto (ins.apply s.pending.pend)
          = (Insertion.mk ins.array ins.pos (hashTxAndRefs E.crypto ins.val.tx ins.val.refs)).apply
            (pendHashes E.crypto s.pending.pend) :=
        (Insertion.apply_map (fun t : PendingTx D => hashTxAndRefs E.crypto t.tx t.refs) ins
          s.pending.pend).symm
      rw [List.map_singleton, hins, hpend, happly]
      exact .cons (fits_pendHashes hfits) (.nil _)

omit [DecidableEq D] in
/-- The generator starts with nothing. -/
theorem arrays_of_generateStart {args : GenArgs D} {now : UInt32}
    (h : generateStart C args now = .ok (some w)) : w.arrays = fun _ => [] := by
  unfold generateStart at h
  split_ifs at h
  · exact absurd h (by simp)
  · obtain ⟨w₁, hw₁, h⟩ := of_bind_eq_ok h
    obtain rfl := Option.some.inj (Except.ok.inj h)
    have htrans : w₁.transHashes = (blank args now).transHashes := by
      obtain ⟨w₂, hw₂, h⟩ := of_bind_eq_ok hw₁
      obtain rfl := Except.ok.inj h
      refine foldlM_preserves (P := fun w => w.transHashes = (blank args now).transHashes)
        (fun w₃ w₄ shard _ h₃ h₄ => ?_) rfl hw₂
      obtain ⟨merkle, -, h₄⟩ := of_bind_eq_ok h₄
      obtain rfl := Except.ok.inj h₄
      exact h₃
    have hnonce : (w₁.setNonce args.nonce).transHashes = w₁.transHashes := by
      cases args.nonce with
      | none => rfl
      | some nonce => rfl
    funext shard
    unfold WorkingBlock.arrays
    rw [hnonce, htrans]
    show ((List.replicate _ [])[shard]?).getD [] = []
    rw [List.getElem?_replicate]
    split_ifs <;> rfl

omit [DecidableEq D] in
theorem nextNonce_arrays (w : WorkingBlock D) (now : UInt32) :
    (w.nextNonce now).arrays = w.arrays := by
  have htrans : (w.nextNonce now).transHashes = w.transHashes := by
    unfold nextNonce
    dsimp only
    split_ifs <;> rfl
  funext shard
  rw [arrays, htrans, arrays]

omit [DecidableEq D] in
/-- The shard order is that of the block the generator is started on. -/
theorem execGenerator_shardOrder {rewardAddr : Address} {nonce : List UInt8} {args : GenArgs D}
    (h : execGenerator E.crypto s rewardAddr nonce = .ok args) :
    args.shardOrder = (s.blk (s.longestKnowns.headD 0)).hdr.shardOrder := by
  unfold execGenerator at h
  dsimp only at h
  obtain ⟨difficulty, -, h⟩ := of_bind_eq_ok h
  obtain rfl := Except.ok.inj h
  rfl

omit [Digest D] [DecidableEq D] in
theorem prevTxhashBlocks_length_le (s : State D) (n : Nat) (b : Option BlockId) :
    (prevTxhashBlocks s n b).length ≤ n := by
  induction n generalizing b with
  | zero => exact Nat.le_refl 0
  | succ n ih =>
    cases b with
    | none => exact Nat.zero_le _
    | some b => exact Nat.succ_le_succ (ih _)

omit [DecidableEq D] in
/-- There is a byte for each shard of the blocks visited, if any. -/
theorem makePrevTxhashes_length_le {n : Nat} (h : ∀ b : Nat, (s.blk b).numShards ≤ n)
    (prevBlock : BlockId) (myAddr : Address) :
    ((makePrevTxhashes C s prevBlock myAddr).getD []).length ≤ protocolPrevBlockTxhashes * n := by
  unfold makePrevTxhashes
  generalize hmapM : List.mapM (m := Option) _ _ = r
  cases r with
  | none => exact Nat.zero_le _
  | some bytes =>
    rw [Option.getD_some, (forall₂_of_mapM hmapM).length_eq.symm, List.length_flatMap]
    refine (List.sum_le_card_nsmul _ n fun k hk => ?_).trans ?_
    · obtain ⟨b, -, rfl⟩ := List.mem_map.mp hk
      rw [List.length_map, List.length_range]
      exact h b
    · rw [List.length_map]
      exact Nat.mul_le_mul_right n (prevTxhashBlocks_length_le s _ _)

/-- What the node passes to the generator is bounded. -/
theorem execGenerator_bounded (hs : NodeReach E s) {rewardAddr : Address} {nonce : List UInt8}
    {args : GenArgs D} (h : execGenerator E.crypto s rewardAddr nonce = .ok args) :
    args.Bounded := by
  have horder := (registry_of_nodeReach hs).toLedger.shardOrder
  refine ⟨?_, ?_⟩
  · rw [execGenerator_shardOrder h, horder]
    decide
  · have hshards : ∀ b : Nat, (s.blk b).numShards ≤ 2 ^ protocolMaxShardOrder.toNat := by
      intro b
      unfold Block.numShards
      rw [horder]
      exact Nat.le_of_ble_eq_true rfl
    have hlen := makePrevTxhashes_length_le (C := E.crypto) hshards (s.longestKnowns.headD 0)
      rewardAddr
    unfold execGenerator at h
    dsimp only at h
    obtain ⟨difficulty, -, h⟩ := of_bind_eq_ok h
    obtain rfl := Except.ok.inj h
    exact (UInt32.toNat_ofNat' ▸ Nat.mod_le _ _).trans hlen

omit [DecidableEq D] in
/-- With nothing pending past the last shard, filling that far fills all. -/
theorem replays_initUpdates (h : PendOk pend) :
    Replays pendShards 255 (fun _ => []) (fill (pendHashes C pend) pendShards) (pendHashes C pend) := by
  have hbound : ∀ i, (pendHashes C pend i).length ≤ 255 := by
    intro i
    unfold pendHashes
    rw [List.length_map]
    exact h.bounded i
  have hall : (fun i => if i < pendShards then pendHashes C pend i else []) = pendHashes C pend := by
    funext i
    split_ifs with hi
    · rfl
    · unfold pendHashes
      rw [h.outside i (Nat.le_of_not_lt hi), List.map_nil]
  have hfill := replays_fill hbound (Nat.le_refl pendShards)
  rwa [hall] at hfill

/-- **The queue and the generator stay in step** whatever is done. -/
theorem inStep_of_genRun (h : GenRun E s queue w) : InStep E s queue w := by
  induction h with
  | start rewardAddr nonce now hs hargs hqueue hstart =>
    obtain ⟨queue, hinit, hlog⟩ := initUpdates_ok E.crypto hs.pend
    rw [hinit] at hqueue
    obtain rfl := Except.ok.inj hqueue
    obtain ⟨hhashed, hof⟩ := hashed_of_generates (.start now hstart)
    refine ⟨hs.pend, hhashed, ⟨_, hof, (execGenerator_shardOrder hargs).trans hs.shardOrder⟩, ?_⟩
    rw [hlog, arrays_of_generateStart hstart]
    exact replays_initUpdates hs.pend
  | insert tx _ hins hhear ih =>
    obtain ⟨more, hmore, hreplays⟩ := hear_insertPendingTx ih.pend hins
    rw [hmore] at hhear
    obtain rfl := Except.ok.inj hhear
    refine ⟨insertPendingTx_pendOk hins ih.pend, ih.hashed, ih.ofArgs, ?_⟩
    rw [List.map_append]
    exact ih.replays.append hreplays
  | meanwhile _ hpend ih =>
    refine ⟨hpend ▸ ih.pend, ih.hashed, ih.ofArgs, ?_⟩
    rw [hpend]
    exact ih.replays
  | read _ hadd ih =>
    obtain ⟨args, hof, horder⟩ := ih.ofArgs
    obtain ⟨hfits, hrest⟩ := ih.replays.uncons
    have hshards : 2 ^ args.shardOrder.toNat = pendShards := by
      rw [horder]
      rfl
    obtain ⟨w₁, hw₁, hhashed, hof₁, harrays⟩ :=
      addTx_insertion ih.hashed hof (hshards.symm ▸ hfits)
    rw [hw₁] at hadd
    obtain rfl := Except.ok.inj hadd
    exact ⟨ih.pend, hhashed, ⟨args, hof₁, horder⟩, harrays.symm ▸ hrest⟩
  | unsolved now _ hsolve ih =>
    obtain ⟨args, hof, horder⟩ := ih.ofArgs
    obtain ⟨-, rfl⟩ := of_solveBlock hsolve
    obtain ⟨hhashed, hof⟩ := finishHash_ok ih.hashed hof
    obtain ⟨hhashed, hof⟩ := nextNonce_ok hhashed hof now
    refine ⟨ih.pend, hhashed, ⟨args, hof, horder⟩, ?_⟩
    rw [if_neg Bool.false_ne_true, nextNonce_arrays]
    exact ih.replays

/-- **A step of the node** is one of those of the run, or shuts the generator down. -/
theorem Step.genRun (h : Step E g s s') (hrun : GenRun E s queue w) :
    (∃ queue', GenRun E s' queue' w) ∨ ∃ s₁ : State D, s' = s₁.emit .restartGenerating := by
  have hs := (inStep_of_genRun hrun).pend
  rcases h.pend_cases hs with hpend | ⟨tx, s₁, kept, hins, hpend⟩ | ⟨-, hrestart⟩
  · exact .inl ⟨queue, .meanwhile hrun hpend⟩
  · obtain ⟨more, hmore, -⟩ := hear_insertPendingTx hs hins
    exact .inl ⟨queue ++ more, .meanwhile (.insert tx hrun hins (hmore queue)) hpend⟩
  · exact .inr hrestart

/-- **The generator mirrors the pending block**: whatever was pending when it was started and
was inserted since, it can read all that is queued for it, and then its hashes of each
shard are those of the pending transactions, in their order, and as many as it says. -/
theorem generator_mirrors_pending (h : GenRun E s queue w) :
    ∃ w', queue.foldlM (addTx E.crypto) w = .ok w' ∧
      ∀ shard < pendShards, w'.transHashes[shard]?
          = some ((s.pending.pend shard).map fun t => hashTxAndRefs E.crypto t.tx t.refs) ∧
        ∃ n, w'.shardNums[shard]? = some n ∧ n.toNat = (s.pending.pend shard).length := by
  have hstep := inStep_of_genRun h
  obtain ⟨args, hof, horder⟩ := hstep.ofArgs
  have hshards : 2 ^ args.shardOrder.toNat = pendShards := by
    rw [horder]
    rfl
  obtain ⟨w', hw', hhashed, hof', harrays⟩ :=
    readAll_of_replays hstep.hashed hof (hshards.symm ▸ hstep.replays)
  refine ⟨w', hw', fun shard hshard => ?_⟩
  obtain ⟨n, l, hn, hl, hlen⟩ := exists_getElem_of_counted hhashed.counted (i := shard)
    (by rw [hof'.numShards_eq, hshards]; exact hshard)
  have hpend : l = (s.pending.pend shard).map fun t => hashTxAndRefs E.crypto t.tx t.refs := by
    have hget := congrFun harrays shard
    unfold WorkingBlock.arrays pendHashes at hget
    rwa [hl, Option.getD_some] at hget
  refine ⟨hl.trans (congrArg some hpend), n, hn, ?_⟩
  rw [hlen, hpend, List.length_map]

/-- A node that starts its generator, and then is sent the payment. -/
theorem generator_mirrors_pending_payment : ∃ s queue w,
    GenRun idealEnv s queue w ∧ s.pending.pend 0 ≠ [] ∧
      ∃ w', queue.foldlM (addTx idealCrypto) w = .ok w' ∧
        w'.transHashes[0]? = some ((s.pending.pend 0).map fun t =>
          hashTxAndRefs idealCrypto t.tx t.refs) := by
  obtain ⟨args, hargs, hvalid⟩ : ∃ args,
      execGenerator idealCrypto sampleNode (Bytes.zero 20) [65] = .ok args ∧
        validDifficulty args.difficulty = true := ⟨_, rfl, by decide +kernel⟩
  obtain ⟨w, hw, hhashed, hof⟩ := WorkingBlock.new_ok idealCrypto args 1000
  have hstart : generateStart idealCrypto args 1000 = .ok (some (w.setNonce args.nonce)) := by
    unfold generateStart
    rw [hvalid, hw]
    rfl
  have hrun : GenRun idealEnv sampleNode [] _ := .start (Bytes.zero 20) [65] 1000
    (startable_of_nodeReach nodeReach_sampleNode) hargs rfl hstart
  obtain ⟨s, hs, hpend⟩ : ∃ s, insertPendingTx idealEnv sampleNode samplePayment = .ok (s, true) ∧
      s.pending.pend 0 ≠ [] := ⟨_, rfl, by decide +kernel⟩
  obtain ⟨more, hmore, -⟩ := hear_insertPendingTx pendOk_new hs
  have hrun' : GenRun idealEnv s ([] ++ more) _ := .insert samplePayment hrun hs (hmore [])
  obtain ⟨w', hw', hmirror⟩ := generator_mirrors_pending hrun'
  exact ⟨s, _, _, hrun', hpend, w', hw', (hmirror 0 (by decide)).1⟩

end Pettycoin
