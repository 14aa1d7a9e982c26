import Pettycoin.Doublespends
import Pettycoin.Generating
import Pettycoin.GossipRun
import Pettycoin.TxOrder

/-!
# Pettycoin — dropping a pending transaction

`drop_pending_tx` takes a transaction off the array or the list it is on, and
leaves its element in `txhash` and those of its inputs in `inputhash`, which
`recheck_pending_txs` deletes before it moves anything. From then on
`txhash_get_pending_tx` still finds the transaction: it is not taken in again,
and when it is dropped once more it is on no list and the node aborts
(`drop_leaves_entry`). Besides, `find_pending_in_arr` stops where its search has
narrowed to, not where the transaction is, so that another one may be taken off
in its place (`findPendingInArr_second`).

So the only transactions dropped without a trace are those that are not pending
(`drop_pending_clean_iff`): what is on a list has an element in `txhash`, as
long as no recheck is due (`Filed`).

* `filed_of_nodeReach` — what is on a list has an element in `txhash`, over whole
  runs;
* `findPendingFrom_found` — what the search finds is there;
* `dropPendingTx_error` — when the call stops the node;
* `drop_pending_clean_iff` — when it leaves no trace.
-/

namespace Pettycoin

open ExceptRules

variable {D : Type} [Digest D] [DecidableEq D] {E : Env D} {s s₁ s' : State D} {b : Nat}

-- ---------------------------------------------------------------------------
-- Lists and elements
-- ---------------------------------------------------------------------------

/-- The transaction is in an array or on the list of the pending block. -/
def PendingBlock.Lists (p : PendingBlock D) (tx : Tx D) : Prop :=
  (∃ shard, tx ∈ (p.pend shard).map PendingTx.tx) ∨ tx ∈ p.unknownTx

/-- `txhash` has a `TX_PENDING` element of the transaction. -/
def HeldPending (E : Env D) (s : State D) (tx : Tx D) : Prop :=
  (txhashGetPendingTx s (hashTx E.crypto tx)).isSome

theorem heldPending_iff {tx : Tx D} :
    HeldPending E s tx ↔
      ∃ te ∈ s.txhash, te.sha = hashTx E.crypto tx ∧ te.isInBlock = false := by
  unfold HeldPending txhashGetPendingTx txhashVals
  rw [List.findSome?_isSome_iff]
  constructor
  · rintro ⟨te, hte, hsome⟩
    obtain ⟨hmem, hsha⟩ := List.mem_filter.mp hte
    refine ⟨te, hmem, beq_iff_eq.mp hsha, ?_⟩
    unfold TxhashElem.isInBlock
    cases hloc : te.loc with
    | pending _ => rfl
    | inBlock b i j =>
      rw [hloc] at hsome
      exact absurd hsome (by simp)
  · rintro ⟨te, hmem, hsha, hpending⟩
    refine ⟨te, List.mem_filter.mpr ⟨hmem, beq_iff_eq.mpr hsha⟩, ?_⟩
    unfold TxhashElem.isInBlock at hpending
    cases hloc : te.loc with
    | pending _ => rfl
    | inBlock b i j =>
      rw [hloc] at hpending
      exact absurd hpending (by simp)

/-- The count is that of the list, and unless a recheck is due what is listed has an
element in `txhash`. -/
structure Filed (E : Env D) (s : State D) : Prop where
  numUnknown : s.pending.numUnknown = s.pending.unknownTx.length
  held : s.pending.needsRecheck = false → ∀ tx, s.pending.Lists tx → HeldPending E s tx

/-- The pending elements of `txhash` are still there. -/
def KeepsPending (s s' : State D) : Prop :=
  ∀ te ∈ s.txhash, te.isInBlock = false → te ∈ s'.txhash

omit [Digest D] [DecidableEq D] in
theorem KeepsPending.refl (s : State D) : KeepsPending s s := fun _ hte _ => hte

omit [Digest D] [DecidableEq D] in
theorem KeepsPending.trans (h : KeepsPending s s₁) (h' : KeepsPending s₁ s') :
    KeepsPending s s' :=
  fun te hte hpending => h' te (h te hte hpending) hpending

theorem KeepsPending.heldPending (h : KeepsPending s s') {tx : Tx D} (hheld : HeldPending E s tx) :
    HeldPending E s' tx := by
  obtain ⟨te, hte, hsha, hpending⟩ := heldPending_iff.mp hheld
  exact heldPending_iff.mpr ⟨te, h te hte hpending, hsha, hpending⟩

omit [Digest D] [DecidableEq D] in
theorem keepsPending_of_add {te : TxhashElem D}
    (h : s'.txhash = E.txLayout.add s.txhash te) : KeepsPending s s' := by
  intro te' hte' _
  rw [h]
  exact (E.txLayout.add_perm _ _).mem_iff.mpr (List.mem_cons_of_mem _ hte')

/-- Nothing happens to the pending block. -/
theorem Filed.congr (h : Filed E s) (hpending : s'.pending = s.pending)
    (hkeeps : KeepsPending s s') : Filed E s' where
  numUnknown := by
    rw [hpending]
    exact h.numUnknown
  held hdue tx hlists := by
    rw [hpending] at hdue hlists
    exact hkeeps.heldPending (h.held hdue tx hlists)

theorem Filed.setNeedsRecheck (h : Filed E s) : Filed E s.setNeedsRecheck where
  numUnknown := h.numUnknown
  held hdue := absurd hdue (by simp [State.setNeedsRecheck, State.modPending])

/-- Transactions of blocks are put on the list. -/
theorem Filed.salvage (h : Filed E s) (hpend : s'.pending.pend = s.pending.pend)
    (hkeeps : KeepsPending s s') {txs : List (Tx D)} (hs : Salvages s s' txs) : Filed E s' where
  numUnknown := by
    rw [hs.numUnknown, hs.unknownTx, List.length_append, h.numUnknown]
  held hdue tx hlists := by
    have hnone : s.pending.needsRecheck = false ∧ txs = [] := by
      by_contra hor
      rw [hs.needsRecheck (by
        rcases not_and_or.mp hor with hold | hne
        · exact .inl (by simpa using hold)
        · exact .inr hne)] at hdue
      exact absurd hdue (by simp)
    obtain ⟨hdue₀, rfl⟩ := hnone
    refine hkeeps.heldPending (h.held hdue₀ tx ?_)
    unfold PendingBlock.Lists at hlists ⊢
    rw [hpend, hs.unknownTx, List.append_nil] at hlists
    exact hlists

theorem filed_newPendingBlock (h : s.pending = newPendingBlock) : Filed E s where
  numUnknown := by rw [h]; rfl
  held _ tx hlists := by
    rw [h] at hlists
    rcases hlists with ⟨_, hmem⟩ | hmem <;> exact absurd hmem List.not_mem_nil

-- ---------------------------------------------------------------------------
-- Taking a transaction in
-- ---------------------------------------------------------------------------

/-- The transaction has been put on a list, and into `txhash`. -/
structure TakenIn (E : Env D) (s s' : State D) (tx : Tx D) : Prop where
  lists : ∀ tx', s'.pending.Lists tx' ↔ tx' = tx ∨ s.pending.Lists tx'
  numUnknown : s.pending.numUnknown = s.pending.unknownTx.length →
    s'.pending.numUnknown = s'.pending.unknownTx.length
  needsRecheck : s'.pending.needsRecheck = s.pending.needsRecheck
  txhash : s'.txhash = E.txLayout.add s.txhash ⟨hashTx E.crypto tx, .pending tx⟩

theorem TakenIn.heldPending {tx : Tx D} (h : TakenIn E s s' tx) : HeldPending E s' tx := by
  refine heldPending_iff.mpr ⟨⟨hashTx E.crypto tx, .pending tx⟩, ?_, rfl, rfl⟩
  rw [h.txhash]
  exact (E.txLayout.add_perm _ _).mem_iff.mpr List.mem_cons_self

theorem Filed.takenIn {tx : Tx D} (hf : Filed E s) (h : TakenIn E s s' tx) : Filed E s' where
  numUnknown := h.numUnknown hf.numUnknown
  held hdue tx' hlists := by
    rcases (h.lists tx').mp hlists with rfl | hold
    · exact h.heldPending
    · rw [h.needsRecheck] at hdue
      exact (keepsPending_of_add h.txhash).heldPending (hf.held hdue tx' hold)

omit [Digest D] [DecidableEq D] in
theorem lists_addToUnknownPending (s : State D) (tx tx' : Tx D) :
    (addToUnknownPending s tx).pending.Lists tx' ↔ tx' = tx ∨ s.pending.Lists tx' := by
  show (_ ∨ tx' ∈ s.pending.unknownTx ++ [tx]) ↔ _
  rw [List.mem_append, List.mem_singleton]
  unfold PendingBlock.Lists
  tauto

omit [Digest D] [DecidableEq D] in
theorem lists_setPend_insert (s : State D) (shard pos : Nat) (p : PendingTx D)
    (hpos : pos ≤ (s.pending.pend shard).length) (tx' : Tx D) :
    (setPend s shard ((s.pending.pend shard).insertIdx pos p)).pending.Lists tx' ↔
      tx' = p.tx ∨ s.pending.Lists tx' := by
  have hmem : ∀ i, tx' ∈ ((Function.update s.pending.pend shard
      ((s.pending.pend shard).insertIdx pos p)) i).map PendingTx.tx ↔
        (i = shard ∧ tx' = p.tx) ∨ tx' ∈ (s.pending.pend i).map PendingTx.tx := by
    intro i
    by_cases hi : i = shard
    · subst hi
      rw [Function.update_self, List.mem_map]
      simp only [List.mem_insertIdx hpos, List.mem_map]
      constructor
      · rintro ⟨q, rfl | hq, rfl⟩
        · exact .inl ⟨trivial, rfl⟩
        · exact .inr ⟨q, hq, rfl⟩
      · rintro (⟨-, rfl⟩ | ⟨q, hq, rfl⟩)
        · exact ⟨p, .inl rfl, rfl⟩
        · exact ⟨q, .inr hq, rfl⟩
    · rw [Function.update_of_ne hi]
      simp [hi]
  show ((∃ i, tx' ∈ _) ∨ tx' ∈ s.pending.unknownTx) ↔ _
  unfold PendingBlock.Lists
  constructor
  · rintro (⟨i, hi⟩ | hunknown)
    · rcases (hmem i).mp hi with ⟨-, htx⟩ | hold
      · exact .inl htx
      · exact .inr (.inl ⟨i, hold⟩)
    · exact .inr (.inr hunknown)
  · rintro (htx | ⟨i, hi⟩ | hunknown)
    · exact .inl ⟨shard, (hmem shard).mpr (.inl ⟨rfl, htx⟩)⟩
    · exact .inl ⟨i, (hmem i).mpr (.inr hi)⟩
    · exact .inr hunknown

/-- It is on a list, now it goes into the hashes. -/
theorem takenIn_of_listed {tx : Tx D} (hlists : ∀ tx', s₁.pending.Lists tx' ↔
      tx' = tx ∨ s.pending.Lists tx')
    (hnum : s.pending.numUnknown = s.pending.unknownTx.length →
      s₁.pending.numUnknown = s₁.pending.unknownTx.length)
    (hdue : s₁.pending.needsRecheck = s.pending.needsRecheck) (htxhash : s₁.txhash = s.txhash)
    (h : addPendingTxToHashes E s₁ tx = .ok s') : TakenIn E s s' tx := by
  have hpending := addPendingTxToHashes_pending h
  unfold addPendingTxToHashes at h
  obtain ⟨_, -, h⟩ := of_bind_eq_ok h
  obtain rfl := Except.ok.inj h
  refine ⟨fun tx' => ?_, fun h => ?_, ?_, ?_⟩
  · rw [hpending]
    exact hlists tx'
  · rw [hpending]
    exact hnum h
  · rw [hpending]
    exact hdue
  · show E.txLayout.add (recordInputs E s₁ true tx).txhash _ = _
    rw [recordInputs_eq, htxhash]

/-- `insert_pending_tx` puts the transaction on a list, or finds no refs for it. -/
theorem insertPendingTx_lists {tx : Tx D} {kept : Bool}
    (h : insertPendingTx E s tx = .ok (s', kept)) :
    (kept = false ∧ s' = s) ∨ (kept = true ∧
      (∀ tx', s'.pending.Lists tx' ↔ tx' = tx ∨ s.pending.Lists tx') ∧
      (s.pending.numUnknown = s.pending.unknownTx.length →
        s'.pending.numUnknown = s'.pending.unknownTx.length) ∧
      s'.pending.needsRecheck = s.pending.needsRecheck ∧ s'.txhash = s.txhash) := by
  unfold insertPendingTx at h
  dsimp only at h
  split_ifs at h with hfull
  · obtain ⟨rfl, rfl⟩ := Prod.mk.inj (Except.ok.inj h)
    refine .inr ⟨rfl, lists_addToUnknownPending s tx, fun hnum => ?_, rfl, rfl⟩
    show s.pending.numUnknown + 1 = (s.pending.unknownTx ++ [tx]).length
    rw [hnum, List.length_append, List.length_singleton]
  · obtain ⟨_, -, h⟩ := of_bind_eq_ok h
    split at h
    · obtain ⟨rfl, rfl⟩ := Prod.mk.inj (Except.ok.inj h)
      exact .inl ⟨rfl, rfl⟩
    · rename_i refs _
      obtain ⟨rfl, rfl⟩ := Prod.mk.inj (Except.ok.inj h)
      exact .inr ⟨rfl, lists_setPend_insert s _ _ ⟨tx, refs⟩ (findPendingFrom_le (Nat.zero_le _)),
        id, rfl, rfl⟩

theorem keepPendingTx_cases {tx : Tx D} {ierr : InputEcode} {bad : Nat} {r : AddPending}
    (h : keepPendingTx E s tx ierr bad = .ok (s', r)) : s' = s ∨ TakenIn E s s' tx := by
  unfold keepPendingTx at h
  split_ifs at h with hfee hunknown
  · obtain ⟨rfl, -⟩ := Prod.mk.inj (Except.ok.inj h)
    exact .inl rfl
  · obtain ⟨⟨s₁, kept⟩, hadd, h⟩ := of_bind_eq_ok h
    obtain ⟨rfl, rfl⟩ := Prod.mk.inj (Except.ok.inj hadd)
    obtain ⟨s₂, hs₂, h⟩ := of_bind_eq_ok h
    obtain ⟨rfl, -⟩ := Prod.mk.inj (Except.ok.inj h)
    refine .inr (takenIn_of_listed (lists_addToUnknownPending s tx) (fun hnum => ?_) rfl rfl hs₂)
    show s.pending.numUnknown + 1 = (s.pending.unknownTx ++ [tx]).length
    rw [hnum, List.length_append, List.length_singleton]
  · obtain ⟨⟨s₁, kept⟩, hins, hrest⟩ := of_bind_eq_ok h
    rcases insertPendingTx_lists hins with ⟨rfl, rfl⟩ | ⟨rfl, hlists, hnum, hdue, htxhash⟩
    · obtain ⟨rfl, -⟩ := Prod.mk.inj (Except.ok.inj hrest)
      exact .inl rfl
    · obtain ⟨s₂, hs₂, hrest⟩ := of_bind_eq_ok hrest
      obtain ⟨rfl, -⟩ := Prod.mk.inj (Except.ok.inj hrest)
      exact .inr (takenIn_of_listed hlists hnum hdue htxhash hs₂)

/-- `add_pending_tx` takes the transaction in, or does nothing. -/
theorem addPendingTx_cases {tx : Tx D} {r : AddPending} (h : addPendingTx E s tx = .ok (s', r)) :
    s' = s ∨ TakenIn E s s' tx := by
  unfold addPendingTx at h
  dsimp only at h
  split_ifs at h
  · obtain ⟨rfl, -⟩ := Prod.mk.inj (Except.ok.inj h)
    exact .inl rfl
  · obtain ⟨rfl, -⟩ := Prod.mk.inj (Except.ok.inj h)
    exact .inl rfl
  · obtain ⟨⟨ierr, bad⟩, -, h⟩ := of_bind_eq_ok h
    dsimp only at h
    split at h
    · exact keepPendingTx_cases h
    · exact keepPendingTx_cases h
    · obtain ⟨rfl, -⟩ := Prod.mk.inj (Except.ok.inj h)
      exact .inl rfl

theorem Filed.addPendingTx {tx : Tx D} {r : AddPending} (hf : Filed E s)
    (h : addPendingTx E s tx = .ok (s', r)) : Filed E s' := by
  rcases addPendingTx_cases h with rfl | htaken
  · exact hf
  · exact hf.takenIn htaken

-- ---------------------------------------------------------------------------
-- What is listed is held
-- ---------------------------------------------------------------------------

omit [Digest D] [DecidableEq D] in
theorem lists_empty (hpend : PendOk s.pending.pend) (hknown : numPendingKnown s = 0)
    (hunknown : s.pending.unknownTx = []) (tx : Tx D) : ¬ s.pending.Lists tx := by
  rintro (⟨shard, hmem⟩ | hmem)
  · have hnil : s.pending.pend shard = [] := by
      by_cases hlt : shard < pendShards
      · have hsum := List.sum_eq_zero_iff.mp hknown _
          (List.mem_map.mpr ⟨shard, List.mem_range.mpr hlt, rfl⟩)
        exact List.length_eq_zero_iff.mp hsum
      · exact hpend.outside shard (by omega)
    rw [hnil] at hmem
    exact absurd hmem List.not_mem_nil
  · rw [hunknown] at hmem
    exact absurd hmem List.not_mem_nil

theorem Filed.recheckPendingTxs (hf : Filed E s) (hpend : PendOk s.pending.pend)
    (h : recheckPendingTxs E s = .ok s') : Filed E s' := by
  unfold Pettycoin.recheckPendingTxs at h
  dsimp only at h
  split_ifs at h with hdue hnone
  · exact Except.ok.inj h ▸ hf
  · obtain rfl := Except.ok.inj h
    rw [Bool.and_eq_true, decide_eq_true_eq, decide_eq_true_eq] at hnone
    obtain ⟨hnum, hknown⟩ := hnone
    have hunknown : s.pending.unknownTx = [] :=
      List.length_eq_zero_iff.mp (hf.numUnknown.symm.trans hnum)
    exact ⟨hf.numUnknown, fun _ tx hlists =>
      absurd hlists (lists_empty (s := s) hpend hknown hunknown tx)⟩
  · obtain ⟨s₁, hs₁, h⟩ := of_bind_eq_ok h
    obtain rfl := Except.ok.inj h
    have hfold : Filed E s₁ := by
      refine foldlM_preserves (P := Filed E) (fun s₂ s₃ tx _ h₂ h₃ => ?_)
        (filed_newPendingBlock rfl) hs₁
      obtain ⟨⟨s₄, r⟩, hadd, h₃⟩ := of_bind_eq_ok h₃
      obtain rfl := Except.ok.inj h₃
      exact h₂.addPendingTx hadd
    exact hfold.congr rfl fun te hte _ => hte

theorem Filed.dropPendingTx {tx : Tx D} (hf : Filed E s) (h : dropPendingTx E s tx = .ok s') :
    Filed E s' := by
  have htxhash := dropPendingTx_txhash h
  have hkeeps : KeepsPending s s' := fun te hte _ => htxhash ▸ hte
  unfold Pettycoin.dropPendingTx at h
  dsimp only at h
  split_ifs at h with hnone hfound hunknown
  · exact Except.ok.inj h ▸ hf
  · obtain rfl := Except.ok.inj h
    refine ⟨hf.numUnknown, fun hdue tx' hlists => hkeeps.heldPending (hf.held hdue tx' ?_)⟩
    rcases hlists with ⟨i, hi⟩ | hmem
    · refine .inl ⟨i, ?_⟩
      change tx' ∈ ((Function.update s.pending.pend _ _) i).map PendingTx.tx at hi
      by_cases heq : i = shardOfTx E.crypto E.past tx (nextShardOrder (s.longestKnowns.headD 0))
      · subst heq
        rw [Function.update_self] at hi
        exact (List.eraseIdx_sublist _ _).map _ |>.subset hi
      · rwa [Function.update_of_ne heq] at hi
    · exact .inr hmem
  · obtain rfl := Except.ok.inj h
    refine ⟨?_, fun hdue tx' hlists => hkeeps.heldPending (hf.held hdue tx' ?_)⟩
    · obtain ⟨tx', hmem, heq⟩ := List.any_eq_true.mp hunknown
      show s.pending.numUnknown - 1 = (s.pending.unknownTx.eraseP _).length
      rw [List.length_eraseP_of_mem hmem heq, hf.numUnknown]
    · rcases hlists with hi | hmem
      · exact .inl hi
      · exact .inr (List.mem_of_mem_eraseP hmem)

theorem keepsPending_txhashDelTx (s : State D) (b shardnum txoff : Nat) (sha : D) :
    KeepsPending s (txhashDelTx s (.inBlock b shardnum txoff) sha) := by
  intro te hte hpending
  refine (List.mem_eraseP_of_neg ?_).mpr hte
  unfold TxhashElem.isInBlock at hpending
  cases hloc : te.loc with
  | pending tx => simp [sameWhere]
  | inBlock b i j =>
    rw [hloc] at hpending
    exact absurd hpending (by simp)

theorem removeTxFromHashes_keeps {shardnum txoff : Nat}
    (h : removeTxFromHashes E s b shardnum txoff = .ok s') : KeepsPending s s' := by
  have hdel : ∀ sha : D, KeepsPending s (txhashDelTx s (.inBlock b shardnum txoff) sha) :=
    keepsPending_txhashDelTx s b shardnum txoff
  unfold removeTxFromHashes at h
  split at h
  · obtain rfl := Except.ok.inj h
    intro te hte hpending
    rw [(forgetInputs_same _).1]
    exact hdel _ te hte hpending
  · obtain rfl := Except.ok.inj h
    exact hdel _
  · exact absurd h (by simp)

theorem Filed.complaintOn {complaint : Complaint D} (hf : Filed E s)
    (h : complaintOn E complaint s b = .ok s') : Filed E s' := by
  unfold Pettycoin.complaintOn at h
  dsimp only at h
  refine foldlM_preserves (P := Filed E) (fun s₁ s₂ place _ h₁ h₂ => ?_) ?_ h
  · exact h₁.congr (removeTxFromHashes_pending h₂) (removeTxFromHashes_keeps h₂)
  · have hmark : Filed E (s.modBlock b fun blk => { blk with complaint := some complaint }) :=
      hf.congr rfl fun te hte _ => hte
    refine hmark.salvage ?_ ?_ (salvages_blockToPending _ b)
    · rw [blockToPending_eq]
      rfl
    · intro te hte _
      rw [blockToPending_eq]
      exact hte

theorem Filed.step (hf : Filed E s) (hpend : PendOk s.pending.pend) {g : Slot D → Prop}
    (h : Step E g s s') : Filed E s' := by
  cases h with
  | quiet hq =>
    obtain ⟨txs, hs⟩ := hq.salvages
    exact hf.salvage hq.pend (fun te hte _ => hq.txhash ▸ hte) hs
  | recheckPending h => exact hf.recheckPendingTxs hpend h
  | addPending tx r _ h => exact hf.addPendingTx h
  | dropPending tx h => exact hf.dropPendingTx h
  | invalidate b complaint _ _ _ h =>
    rw [complaintOnAll_eq_foldlM] at h
    exact foldlM_preserves (P := Filed E) (fun _ _ _ _ h₁ h₂ => h₁.complaintOn h₂) hf h
  | fillUnknown b shardnum txoff tx refs => exact hf.congr rfl (keepsPending_of_add rfl)
  | fillHash b shardnum txoff tx refs => exact hf.congr rfl fun te hte _ => hte
  | setHash b shardnum txoff h =>
    have hkeeps : KeepsPending s (addTxhashToHashes E
        (s.modShard b shardnum fun shard => shard.setHash txoff h) b shardnum txoff h.txhash) :=
      keepsPending_of_add rfl
    have hset : Filed E (addTxhashToHashes E
        (s.modShard b shardnum fun shard => shard.setHash txoff h) b shardnum txoff h.txhash) :=
      hf.congr rfl hkeeps
    exact hset.setNeedsRecheck
  | storeProofs b shardnum f => exact hf.congr rfl fun te hte _ => hte
  | sew prev nb _ =>
    refine hf.congr (sewBlock_pending s prev nb) fun te hte _ => ?_
    rw [(sewBlock_same s prev nb).2.1]
    exact hte

theorem filed_of_nodeReach (h : NodeReach E s) : Filed E s := by
  have hboth := h.preserves (P := fun s : State D => PendOk s.pending.pend ∧ Filed E s)
    (fun _ _ _ _ _ _ => ⟨pendOk_new, filed_newPendingBlock rfl⟩) fun _ _ _ hstep hs =>
      ⟨hstep.pendOk hs.1, hs.2.step hs.1 hstep⟩
  exact hboth.2

-- ---------------------------------------------------------------------------
-- The search
-- ---------------------------------------------------------------------------

omit [DecidableEq D] in
/-- Only the same transaction compares equal. -/
theorem eq_of_txCmp_eq {tx tx' : Tx D} (h : txCmp E.crypto E.past tx tx' = .eq) : tx = tx' := by
  rw [txCmp_eq, Ordering.then_eq_eq] at h
  exact marshalTx_injective (Std.LawfulEqCmp.eq_of_compare h.2)

omit [DecidableEq D] in
theorem findPendingFrom_found {pend : List (PendingTx D)} {tx : Tx D} {fuel pos stop : Nat}
    (h : (findPendingFrom E pend tx fuel pos stop).1 = true) : tx ∈ pend.map PendingTx.tx := by
  induction fuel generalizing pos stop with
  | zero => exact absurd h (by simp [findPendingFrom])
  | succ fuel ih =>
    unfold findPendingFrom at h
    dsimp only at h
    split_ifs at h
    · split at h
      · exact absurd h (by simp)
      · rename_i p hp
        split at h
        · exact ih h
        · exact ih h
        · rename_i heq
          exact List.mem_map.mpr ⟨p, List.mem_of_getElem? hp, (eq_of_txCmp_eq heq).symm⟩

omit [DecidableEq D] in
/-- Of two transactions the second is found, at the position of the first. -/
theorem findPendingInArr_second (p q : PendingTx D) :
    findPendingInArr E [p, q] q.tx = (true, 0) := by
  have hself : txCmp E.crypto E.past q.tx q.tx = .eq := Std.ReflCmp.compare_self
  simp [findPendingInArr, findPendingFrom, hself]

-- ---------------------------------------------------------------------------
-- Taking it in again
-- ---------------------------------------------------------------------------

/-- But for what is pending of it already, `add_pending_tx` takes the transaction: it is not in
the longest known chain, pays its fee, and its inputs are unknown, or right, not spent by what is
pending, and young enough unless the array is full. -/
structure Admissible (E : Env D) (s : State D) (tx : Tx D) : Prop where
  notInChain : txhashGettxAncestor s (hashTx E.crypto tx) (s.longestKnowns.headD 0) = none
  pays : dropsFeeless s tx = false
  inputs : ∃ ierr bad, checkTxInputs E s (s.longestKnowns.headD 0) none tx = .ok (ierr, bad) ∧
    (ierr = .unknown ∨ ierr = .ok ∧ findPendingDoublespend s tx = false ∧
      ((createRefs s (s.longestKnowns.headD 0) tx 1).isSome ∨
        (s.pending.pend (shardOfTx E.crypto E.past tx
          (nextShardOrder (s.longestKnowns.headD 0)))).length = 255))

theorem addPendingTxToHashes_ok {tx : Tx D} (hheld : ¬ HeldPending E s tx)
    (htxhash : s₁.txhash = s.txhash) : ∃ s', addPendingTxToHashes E s₁ tx = .ok s' := by
  have hnone : (txhashGetPendingTx s₁ (hashTx E.crypto tx)).isNone = true := by
    unfold HeldPending txhashGetPendingTx txhashVals at hheld
    unfold txhashGetPendingTx txhashVals
    rw [htxhash]
    simpa using hheld
  unfold addPendingTxToHashes
  dsimp only
  rw [hnone]
  exact ⟨_, rfl⟩

theorem insertPendingTx_ok {tx : Tx D} (hunlisted : ¬ s.pending.Lists tx)
    (hrefs : (createRefs s (s.longestKnowns.headD 0) tx 1).isSome ∨
      (s.pending.pend (shardOfTx E.crypto E.past tx
        (nextShardOrder (s.longestKnowns.headD 0)))).length = 255) :
    ∃ s', insertPendingTx E s tx = .ok (s', true) := by
  unfold insertPendingTx
  dsimp only
  split_ifs with hfull
  · exact ⟨_, rfl⟩
  · obtain ⟨refs, hrefs⟩ := Option.isSome_iff_exists.mp (hrefs.resolve_right hfull)
    have hnew : (findPendingInArr E (s.pending.pend (shardOfTx E.crypto E.past tx
        (nextShardOrder (s.longestKnowns.headD 0)))) tx).1 = false := by
      by_contra hfound
      rw [Bool.not_eq_false] at hfound
      exact hunlisted (.inl ⟨_, findPendingFrom_found hfound⟩)
    rw [hnew, hrefs]
    exact ⟨_, rfl⟩

/-- What is not pending is taken in. -/
theorem Admissible.takenIn {tx : Tx D} (ha : Admissible E s tx) (hheld : ¬ HeldPending E s tx)
    (hunlisted : ¬ s.pending.Lists tx) :
    ∃ s' r, addPendingTx E s tx = .ok (s', r) ∧ TakenIn E s s' tx := by
  obtain ⟨ierr, bad, hinputs, hierr⟩ := ha.inputs
  have hknows : knowsTx E.crypto s tx = false := by
    unfold knowsTx
    rw [ha.notInChain, Bool.or_eq_false_iff]
    exact ⟨rfl, by simpa [HeldPending] using hheld⟩
  rw [addPendingTx_of_unknown hknows, hinputs, ok_bind]
  dsimp only
  rcases hierr with rfl | ⟨rfl, hspends, hrefs⟩
  · have hsame : (addToUnknownPending s tx).txhash = s.txhash := rfl
    obtain ⟨s₂, hs₂⟩ := addPendingTxToHashes_ok hheld hsame
    refine ⟨s₂, ⟨.unknown, bad, none⟩, ?_, takenIn_of_listed (lists_addToUnknownPending s tx)
      (fun hnum => ?_) rfl rfl hs₂⟩
    · show keepPendingTx E s tx .unknown bad = _
      unfold keepPendingTx
      rw [if_neg (ne_true_of_eq_false ha.pays)]
      dsimp only
      rw [if_pos rfl, ok_bind]
      simp [hs₂]
    · show s.pending.numUnknown + 1 = (s.pending.unknownTx ++ [tx]).length
      rw [hnum, List.length_append, List.length_singleton]
  · obtain ⟨s₁, hins⟩ := insertPendingTx_ok hunlisted hrefs
    obtain ⟨hkept, -⟩ | ⟨-, hlists, hnum, hdue, htxhash⟩ := insertPendingTx_lists hins
    · exact absurd hkept (by simp)
    · obtain ⟨s₂, hs₂⟩ := addPendingTxToHashes_ok hheld htxhash
      refine ⟨s₂, ⟨.ok, bad, none⟩, ?_, takenIn_of_listed hlists hnum hdue htxhash hs₂⟩
      rw [hspends]
      show keepPendingTx E s tx .ok bad = _
      unfold keepPendingTx
      rw [if_neg (ne_true_of_eq_false ha.pays)]
      dsimp only
      rw [if_neg (by decide), hins, ok_bind]
      simp [hs₂]

-- ---------------------------------------------------------------------------
-- A clean drop
-- ---------------------------------------------------------------------------

/-- `inputhash` has elements of a transaction that is known in a block only. -/
def InputsGone (E : Env D) (s : State D) (tx : Tx D) : Prop :=
  (∃ ie ∈ s.inputhash, ie.usedBy = hashTx E.crypto tx) →
    (txhashGettx s (hashTx E.crypto tx) .inBlock).isSome

/-- From `s` to `s'` a transaction has been dropped, completely and nothing else. -/
structure DroppedFrom (E : Env D) (s s' : State D) (tx : Tx D) : Prop where
  unlisted : ¬ s'.pending.Lists tx
  noElement : ¬ HeldPending E s' tx
  inputs : InputsGone E s' tx
  otherPend : ∀ shard, s'.pending.pend shard = (s.pending.pend shard).filter fun p => p.tx ≠ tx
  otherUnknown : s'.pending.unknownTx = s.pending.unknownTx.filter (· ≠ tx)
  otherElements :
    (s'.txhash.filter fun te => te.sha ≠ hashTx E.crypto tx || te.isInBlock)
      = s.txhash.filter fun te => te.sha ≠ hashTx E.crypto tx || te.isInBlock
  otherInputs : (s'.inputhash.filter fun ie => ie.usedBy ≠ hashTx E.crypto tx)
    = s.inputhash.filter fun ie => ie.usedBy ≠ hashTx E.crypto tx
  numUnknown : s'.pending.numUnknown = s'.pending.unknownTx.length
  /-- Dropping it once more changes nothing. -/
  again : dropPendingTx E s' tx = .ok s'
  /-- It can be taken in again. -/
  readmitted : Admissible E s' tx → ∃ s₂ r, addPendingTx E s' tx = .ok (s₂, r) ∧ TakenIn E s' s₂ tx

/-- `drop_pending_tx` drops the transaction, completely and nothing else. -/
def DropsCleanly (E : Env D) (s : State D) (tx : Tx D) : Prop :=
  ∃ s', dropPendingTx E s tx = .ok s' ∧ DroppedFrom E s s' tx

theorem dropPendingTx_of_not_held {tx : Tx D} (hheld : ¬ HeldPending E s tx) :
    dropPendingTx E s tx = .ok s := by
  unfold dropPendingTx
  exact if_pos (by simpa [HeldPending] using hheld)

/-- It only stops when the transaction is on no list. -/
theorem dropPendingTx_error {tx : Tx D} {e : Fault} (h : dropPendingTx E s tx = .error e) :
    e = .pendingMissing := by
  unfold dropPendingTx at h
  dsimp only at h
  split_ifs at h
  exact (Except.error.inj h).symm

/-- **Only what is not pending is dropped cleanly**: the element in `txhash` stays. And nothing
may be left in `inputhash` from a time when it was pending. While a recheck is due there may be
transactions on the lists that `txhash` does not hold, so this is about all other times. -/
theorem drop_pending_clean_iff (hreach : NodeReach E s) (hdue : s.pending.needsRecheck = false)
    (tx : Tx D) : DropsCleanly E s tx ↔ ¬ HeldPending E s tx ∧ InputsGone E s tx := by
  have hf := filed_of_nodeReach hreach
  constructor
  · rintro ⟨s', hdrop, hclean⟩
    have hheld : ¬ HeldPending E s tx := by
      have htxhash := dropPendingTx_txhash hdrop
      intro hheld
      exact hclean.noElement (KeepsPending.heldPending (fun te hte _ => htxhash ▸ hte) hheld)
    rw [dropPendingTx_of_not_held hheld] at hdrop
    obtain rfl := Except.ok.inj hdrop
    exact ⟨hheld, hclean.inputs⟩
  · rintro ⟨hheld, hinputs⟩
    have hunlisted : ¬ s.pending.Lists tx := fun hlists => hheld (hf.held hdue tx hlists)
    refine ⟨s, dropPendingTx_of_not_held hheld, hunlisted, hheld, hinputs, fun shard => ?_, ?_, rfl,
      rfl, hf.numUnknown, dropPendingTx_of_not_held hheld, fun ha => ha.takenIn hheld hunlisted⟩
    · refine (List.filter_eq_self.mpr fun p hp => ?_).symm
      have hne : p.tx ≠ tx := fun heq =>
        hunlisted (.inl ⟨shard, List.mem_map.mpr ⟨p, hp, heq⟩⟩)
      exact decide_eq_true hne
    · refine (List.filter_eq_self.mpr fun tx' hmem => ?_).symm
      have hne : tx' ≠ tx := fun heq => hunlisted (.inr (heq ▸ hmem))
      exact decide_eq_true hne

/-- A payment is pending, and a transaction that spends an output nobody knows. -/
def sampleWaiting : List (NodeEvent IdealDigest) :=
  [.packet ⟨0, false⟩ (.tx samplePayment), .packet ⟨0, false⟩ (.tx sampleFee)]

/-- A node with these on its lists has not heard of another spender, and could take it in. -/
theorem drop_pending_clean_iff_waiting : ∃ s : State IdealDigest, NodeReach idealEnv s ∧
    s.pending.unknownTx = [sampleFee] ∧ s.inputhash ≠ [] ∧
      HeldPending idealEnv s samplePayment ∧ Admissible idealEnv s sampleOnce ∧
      DropsCleanly idealEnv s sampleOnce := by
  have hrun : (nodeRun idealEnv sampleNode sampleWaiting).toOption.any fun s =>
      !s.pending.needsRecheck && decide (s.pending.unknownTx = [sampleFee]) &&
        !s.inputhash.isEmpty && (txhashGetPendingTx s (hashTx idealCrypto samplePayment)).isSome &&
        !(txhashGettxAncestor s (hashTx idealCrypto sampleOnce) (s.longestKnowns.headD 0)).isSome &&
        !dropsFeeless s sampleOnce &&
        decide (checkTxInputs idealEnv s (s.longestKnowns.headD 0) none sampleOnce
          = .ok (.unknown, 0)) &&
        !(txhashGetPendingTx s (hashTx idealCrypto sampleOnce)).isSome &&
        s.inputhash.all (fun ie => decide (ie.usedBy ≠ hashTx idealCrypto sampleOnce)) := by
    decide +kernel
  obtain ⟨s, hs, hfacts⟩ := (Option.any_eq_true _ _).mp hrun
  simp only [Bool.and_eq_true, Bool.not_eq_true', decide_eq_true_eq, List.isEmpty_eq_false_iff,
    Option.isSome_eq_false_iff, Option.isNone_iff_eq_none, List.all_eq_true] at hfacts
  obtain ⟨⟨⟨⟨⟨⟨⟨⟨hdue, hunknown⟩, hinputs⟩, hother⟩, hchain⟩, hpays⟩, hcheck⟩, hheld⟩, hused⟩ := hfacts
  have hreach := nodeReach_sampleNode.run (eq_ok_of_toOption hs)
  refine ⟨s, hreach, hunknown, hinputs, hother, ⟨hchain, hpays, _, _, hcheck, .inl rfl⟩,
    (drop_pending_clean_iff hreach hdue sampleOnce).mpr ⟨?_, ?_⟩⟩
  · unfold HeldPending
    simp [hheld, idealEnv]
  · rintro ⟨ie, hie, husedBy⟩
    exact absurd husedBy (hused ie hie)

/-- A transaction with an unknown input is pending. Once dropped it is still held, and to drop it
again stops the node. -/
theorem drop_leaves_entry : ∃ s s' : State IdealDigest, NodeReach idealEnv s ∧
    s.pending.needsRecheck = false ∧ ¬ DropsCleanly idealEnv s sampleOnce ∧
      dropPendingTx idealEnv s sampleOnce = .ok s' ∧ HeldPending idealEnv s' sampleOnce ∧
      dropPendingTx idealEnv s' sampleOnce = .error .pendingMissing := by
  have hrun : (nodeStep idealEnv sampleNode (.packet ⟨0, false⟩ (.tx sampleOnce))).toOption.any
      (fun s => !s.pending.needsRecheck &&
        (txhashGetPendingTx s (hashTx idealCrypto sampleOnce)).isSome &&
        (dropPendingTx idealEnv s sampleOnce).toOption.any fun s' =>
          !(dropPendingTx idealEnv s' sampleOnce).toOption.isSome) = true := by
    decide +kernel
  obtain ⟨s, hs, hrun⟩ := (Option.any_eq_true _ _).mp hrun
  obtain ⟨hboth, hrun⟩ := Bool.and_eq_true_iff.mp hrun
  obtain ⟨hdue, hheld⟩ := Bool.and_eq_true_iff.mp hboth
  obtain ⟨s', hs', hagain⟩ := (Option.any_eq_true _ _).mp hrun
  have hdrop := eq_ok_of_toOption hs'
  have hdue : s.pending.needsRecheck = false := by simpa using hdue
  have hheld' : HeldPending idealEnv s' sampleOnce :=
    KeepsPending.heldPending (fun te hte _ => dropPendingTx_txhash hdrop ▸ hte) hheld
  have hreach : NodeReach idealEnv s :=
    .step _ nodeReach_sampleNode (eq_ok_of_toOption hs)
  refine ⟨s, s', hreach, hdue, ?_, hdrop, hheld', ?_⟩
  · rintro ⟨s₁, hs₁, hclean⟩
    obtain rfl := Except.ok.inj (hdrop.symm.trans hs₁)
    exact hclean.noElement hheld'
  · cases hstop : dropPendingTx idealEnv s' sampleOnce with
    | ok s₂ =>
      rw [hstop] at hagain
      exact absurd hagain (by simp [Except.toOption])
    | error e => rw [dropPendingTx_error hstop]

end Pettycoin
