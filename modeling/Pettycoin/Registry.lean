import Pettycoin.NodeSteps
import Pettycoin.Complained

/-!
# Pettycoin — the places in `txhash`

What the steps of a node do to the elements of `txhash` that name a place in a
block: a slot that becomes known is named, a complaint takes out the places of
a subtree, and nothing else changes them. So a place is named once at most
(`registry_of_nodeReach`).

* `Registry.add` — a slot becomes known;
* `Step.renamed` — what each kind of step does to the places;
* `registry_of_nodeReach` — over every run a place is named once.
-/

namespace Pettycoin

open ExceptRules Relation

variable {D : Type} [Digest D] [DecidableEq D] {E : Env D} {s s' : State D} {b : Nat}

-- ---------------------------------------------------------------------------
-- What txhash names
-- ---------------------------------------------------------------------------

omit [Digest D] [DecidableEq D] in
theorem named_iff_placed {shardnum txoff : Nat} :
    Named s b shardnum txoff ↔ ∃ te ∈ placed s, te.loc = .inBlock b shardnum txoff := by
  constructor
  · rintro ⟨te, hte, hloc⟩
    refine ⟨te, mem_placed.mpr ⟨hte, ?_⟩, hloc⟩
    unfold TxhashElem.isInBlock
    rw [hloc]
  · rintro ⟨te, hte, hloc⟩
    exact ⟨te, (mem_placed.mp hte).1, hloc⟩

/-- An unknown place is not named. -/
theorem Ledger.fresh (hl : Ledger E s) {shardnum txoff : Nat}
    (hu : (s.shardOf b shardnum).u txoff = .unknown) : ¬ Named s b shardnum txoff := by
  rintro ⟨te, hte, hloc⟩
  obtain ⟨-, h, hentry, -⟩ := hl.inBlock te hte b shardnum txoff hloc
  rw [entryAt_eq_none.mpr hu] at hentry
  exact absurd hentry (by simp)

omit [Digest D] [DecidableEq D] in
/-- What one step does to the elements that name places. -/
theorem placed_add {te : TxhashElem D} (ht : s'.txhash = E.txLayout.add s.txhash te)
    (hin : te.isInBlock = true) : (placed s').Perm (te :: placed s) := by
  unfold placed
  rw [ht]
  refine ((E.txLayout.add_perm s.txhash te).filter _).trans ?_
  rw [List.filter_cons_of_pos hin]

-- ---------------------------------------------------------------------------
-- Every step
-- ---------------------------------------------------------------------------

/-- The ledger, with every place named once at most. -/
structure Registry (E : Env D) (s : State D) : Prop extends Ledger E s where
  once : (placed s).Nodup

/-- A place that was not known gets named. -/
theorem Registry.add (hr : Registry E s) (hl' : Ledger E s') {shardnum txoff : Nat} {sha : D}
    (hu : (s.shardOf b shardnum).u txoff = .unknown)
    (ht : s'.txhash = E.txLayout.add s.txhash ⟨sha, .inBlock b shardnum txoff⟩) :
    Registry E s' ∧ ∀ x i j, Named s' x i j ↔
      (x = b ∧ i = shardnum ∧ j = txoff) ∨ Named s x i j := by
  have hperm := placed_add ht rfl
  have hnot : (⟨sha, .inBlock b shardnum txoff⟩ : TxhashElem D) ∉ placed s := fun hmem =>
    hr.toLedger.fresh hu (named_iff_placed.mpr ⟨_, hmem, rfl⟩)
  refine ⟨⟨hl', hperm.nodup_iff.mpr (List.nodup_cons.mpr ⟨hnot, hr.once⟩)⟩, fun x i j => ?_⟩
  rw [named_iff_placed, named_iff_placed]
  simp only [hperm.mem_iff, List.mem_cons]
  constructor
  · rintro ⟨te, rfl | hte, hloc⟩
    · injection hloc with hb hi hj
      exact .inl ⟨hb.symm, hi.symm, hj.symm⟩
    · exact .inr ⟨te, hte, hloc⟩
  · rintro (⟨rfl, rfl, rfl⟩ | ⟨te, hte, hloc⟩)
    · exact ⟨_, .inl rfl, rfl⟩
    · exact ⟨te, .inr hte, hloc⟩

/-- What the steps do to the places `txhash` names, and to the complaints. -/
inductive Renamed (g : Slot D → Prop) (s s' : State D) : Prop
  /-- Nothing changes for the blocks there are. -/
  | same : (placed s').Perm (placed s) →
    (∀ x : Nat, x < s.numBlocks → (s'.blk x).complaint = (s.blk x).complaint) → Renamed g s s'
  /-- The blocks of a list get a complaint, and are not named any more. -/
  | invalidated (complaint : Complaint D) (blocks : List BlockId) :
    Invalidated complaint blocks s s' → Renamed g s s'
  /-- A place that was unknown gets named. -/
  | named (b shardnum txoff : Nat) : (s.shardOf b shardnum).u txoff = .unknown →
    (g .unknown → (s.blk b).complaint = none) →
    (∀ x i j, Named s' x i j ↔ (x = b ∧ i = shardnum ∧ j = txoff) ∨ Named s x i j) →
    (∀ x : Nat, (s'.blk x).complaint = (s.blk x).complaint) → Renamed g s s'

theorem Step.renamed {g : Slot D → Prop} (h : Step E g s s') (hr : Registry E s) :
    Registry E s' ∧ Renamed g s s' := by
  have hl' := (h.ledger hr.toLedger).1
  have hsame : (placed s').Perm (placed s) →
      (∀ x : Nat, x < s.numBlocks → (s'.blk x).complaint = (s.blk x).complaint) →
        Registry E s' ∧ Renamed g s s' :=
    fun hp hc => ⟨⟨hl', hp.nodup_iff.mpr hr.once⟩, .same hp hc⟩
  have hminor : Minor s s' → Registry E s' ∧ Renamed g s s' :=
    fun hm => hsame hm.placed fun x _ => hm.complaint_eq x
  cases h with
  | quiet hq => exact hminor ((Minor.refl s).quiet hq)
  | recheckPending h => exact hminor ((recheckPendingTxs_calm (.refl s)).of_ok h).toMinor
  | addPending tx r _ h => exact hminor ((addPendingTx_calm (.refl s) tx).of_ok h).toMinor
  | dropPending tx h => exact hminor ((dropPendingTx_calm (.refl s) tx).of_ok h).toMinor
  | invalidate b complaint _ _ _ h =>
    have hinv := hr.toLedger.complaintOnAll_spec hr.once h
    refine ⟨⟨hl', ?_⟩, .invalidated complaint _ hinv⟩
    rw [hinv.placed]
    exact hr.once.filter _
  | fillUnknown b shardnum txoff tx refs _ hu _ _ hg =>
    obtain ⟨hr', hnamed⟩ := hr.add hl' hu rfl
    refine ⟨hr', .named b shardnum txoff hu hg hnamed fun x => ?_⟩
    show ((s.modShard b shardnum fun shard => shard.setTx txoff tx refs).blk x).complaint = _
    rw [blk_modShard]
  | fillHash b shardnum txoff tx refs _ _ _ _ =>
    refine hsame (List.Perm.refl _) fun x _ => ?_
    show ((s.modShard b shardnum fun shard => shard.upgradeTx txoff tx refs).blk x).complaint = _
    rw [blk_modShard]
  | setHash b shardnum txoff h _ hu _ hg =>
    obtain ⟨hr', hnamed⟩ := hr.add hl' hu rfl
    refine ⟨hr', .named b shardnum txoff hu hg hnamed fun x => ?_⟩
    show ((s.modShard b shardnum fun shard => shard.setHash txoff h).blk x).complaint = _
    rw [blk_modShard]
  | storeProofs b shardnum f =>
    refine hsame (List.Perm.refl _) fun x _ => ?_
    rw [blk_modShard]
  | sew prev nb hadd =>
    refine hsame ?_ fun x hx => ?_
    · unfold placed
      rw [(sewBlock_same s prev nb).2.1]
    · rw [blk_sewBlock_old hadd.prev_lt (Nat.ne_of_lt hx)]

omit [Digest D] [DecidableEq D] in
theorem SameBlocks.header_eq (h : SameBlocks s s') (x : Nat) :
    (s'.blk x).header = (s.blk x).header := by
  rw [h.blk x]
  rfl

omit [Digest D] [DecidableEq D] in
theorem header_modShard (s : State D) (b shardnum : Nat) (f : BlockShard D → BlockShard D)
    (x : Nat) : ((s.modShard b shardnum f).blk x).header = (s.blk x).header := by
  rw [blk_modShard]
  rfl

/-- A step leaves the blocks there are what they are, or adds one. -/
theorem Step.blocks {g : Slot D → Prop} (h : Step E g s s') (hr : Registry E s) :
    (s'.numBlocks = s.numBlocks ∧ ∀ x : Nat, (s'.blk x).header = (s.blk x).header) ∨
      ∃ prev nb, Addable s prev nb ∧ s' = sewBlock s prev nb := by
  have hminor : Minor s s' →
      s'.numBlocks = s.numBlocks ∧ ∀ x : Nat, (s'.blk x).header = (s.blk x).header :=
    fun hm => ⟨hm.numBlocks, hm.toSameBlocks.header_eq⟩
  cases h with
  | quiet hq => exact .inl (hminor ((Minor.refl s).quiet hq))
  | recheckPending h => exact .inl (hminor ((recheckPendingTxs_calm (.refl s)).of_ok h).toMinor)
  | addPending tx r _ h => exact .inl (hminor ((addPendingTx_calm (.refl s) tx).of_ok h).toMinor)
  | dropPending tx h => exact .inl (hminor ((dropPendingTx_calm (.refl s) tx).of_ok h).toMinor)
  | invalidate b complaint _ _ _ h =>
    have hinv := hr.toLedger.complaintOnAll_spec hr.once h
    refine .inl ⟨hinv.numBlocks, fun x => ?_⟩
    rw [hinv.blk x]
    split_ifs <;> rfl
  | fillUnknown b shardnum txoff tx refs =>
    exact .inl ⟨rfl, header_modShard s b shardnum fun shard => shard.setTx txoff tx refs⟩
  | fillHash b shardnum txoff tx refs =>
    exact .inl ⟨rfl, header_modShard s b shardnum fun shard => shard.upgradeTx txoff tx refs⟩
  | setHash b shardnum txoff h =>
    exact .inl ⟨rfl, header_modShard s b shardnum fun shard => shard.setHash txoff h⟩
  | storeProofs b shardnum f =>
    exact .inl ⟨rfl, header_modShard s b shardnum fun shard => { shard with proof := f shard }⟩
  | sew prev nb hadd => exact .inr ⟨prev, nb, hadd, rfl⟩

theorem Trail.registry {g : Slot D → Prop} (h : Trail E g s s') (hr : Registry E s) :
    Registry E s' := by
  induction h with
  | refl => exact hr
  | tail _ hstep ih => exact (hstep.renamed ih).1

/-- Nothing is promised of slots of which nothing holds. -/
theorem NodeEvent.fillsClean_false (E : Env D) (s : State D) (event : NodeEvent D) :
    event.FillsClean E (fun _ => False) s := by
  cases event with
  | packet peer pkt => cases pkt <;> first | trivial | exact fun _ _ _ h => absurd h id
  | _ => trivial

/-- The registry of a running node. -/
theorem registry_of_nodeReach (h : NodeReach E s) : Registry E s := by
  induction h with
  | start sha merkle nonce2 tailer now opts =>
    exact ⟨(ledgerOk_startNode sha merkle nonce2 tailer now opts).toLedger, List.nodup_nil⟩
  | @step s s' event hreach hstep ih =>
    exact Trail.registry
      ((nodeStep_trail ih.toLedger event (event.fillsClean_false E s)).of_ok hstep) ih

/-- What holds at the start and is kept by every step holds as long as the node runs. -/
theorem NodeReach.preserves {P : State D → Prop}
    (hstart : ∀ (sha merkle : D) (nonce2 : Bytes 13) (tailer : BlockTailer) (now : UInt32)
      (opts : FeeOptions), P (startNode (genesisBlock sha merkle nonce2 tailer) now opts))
    (hstep : ∀ s s' : State D, Registry E s → Step E (fun _ => False) s s' → P s → P s')
    (h : NodeReach E s) : P s := by
  induction h with
  | start sha merkle nonce2 tailer now opts => exact hstart sha merkle nonce2 tailer now opts
  | @step s s' event hreach hstep' ih =>
    have hr := registry_of_nodeReach hreach
    have htrail := (nodeStep_trail hr.toLedger event (event.fillsClean_false E s)).of_ok hstep'
    clear hstep'
    induction htrail with
    | refl => exact ih
    | tail hprefix hlast ihp => exact hstep _ _ (Trail.registry hprefix hr) hlast ihp

end Pettycoin
