import Pettycoin.Filling

/-!
# Pettycoin — the hashes of a mined block are resolved

`put_txhash_in_shard` and `try_resolve_hash` take a block of pending transactions
from one stage of `Filling` to the next (`Filling.putTxhash`, `Filling.resolve`).
On the way `check_resolved_txs` rechecks whatever spends from the transaction that
was put. As long as that stays quiet, nothing but the log comes of it
(`Filling.checkResolvedTxs_noted`).

* `checkTxInputsAndRefs_noted` — the recheck of one transaction;
* `Filling.checkResolvedTxs_noted` — of all that spend from one;
* `Filling.putTxhashes` — the hashes are put;
* `Filling.findTxWithRef_eq` — and the transactions are found.
-/

namespace Pettycoin

open ExceptRules Forest

variable {D : Type} {E : Env D} {s₁ s s' : State D} {b : Nat} {k m : Nat → Nat}

-- ---------------------------------------------------------------------------
-- What is only noted
-- ---------------------------------------------------------------------------

/-- The state is the same but for the log and the wish for a recheck. -/
def Noted (s s' : State D) : Prop :=
  ∃ events needsRecheck, s' = { s with
    events := events, pending := { s.pending with needsRecheck := needsRecheck } }

theorem Noted.refl (s : State D) : Noted s s := ⟨s.events, s.pending.needsRecheck, rfl⟩

theorem Noted.trans {s'' : State D} (h : Noted s s') (h' : Noted s' s'') : Noted s s'' := by
  obtain ⟨events, due, rfl⟩ := h
  obtain ⟨events', due', rfl⟩ := h'
  exact ⟨events', due', rfl⟩

theorem noted_emit (s : State D) (e : Event D) : Noted s (s.emit e) :=
  ⟨_, s.pending.needsRecheck, rfl⟩

theorem noted_setNeedsRecheck (s : State D) : Noted s s.setNeedsRecheck := ⟨s.events, true, rfl⟩

variable [Digest D]

theorem Filling.noted (h : Filling E s₁ b k m s) (hn : Noted s s') : Filling E s₁ b k m s' := by
  obtain ⟨events, due, rfl⟩ := hn
  exact ⟨h.numBlocks, h.blk, h.old, h.shard, h.partWay, h.pend, h.txhash, h.inputhash, h.now⟩

variable [DecidableEq D]

-- ---------------------------------------------------------------------------
-- A place that stays quiet
-- ---------------------------------------------------------------------------

omit [DecidableEq D] in
/-- A proof depends on the shard, and on the hash of the block. -/
theorem createProof_congr {C : Crypto D} {y i j : Nat} (hshard : s'.shardOf y i = s.shardOf y i)
    (hsha : (s'.blk y).sha = (s.blk y).sha) : createProof C s' y i j = createProof C s y i j := by
  unfold createProof
  rw [hshard, hsha]

omit [DecidableEq D] in
/-- What is known can be proven. -/
theorem provenTxAt_ok {y i j : Nat} {tx : Tx D} {refs : List InputRef} {proof : Proof D}
    (hslot : (s.shardOf y i).u j = .tx tx refs)
    (hproof : createProof E.crypto s y i j = .ok proof) :
    provenTxAt E.crypto s y i j = .ok ⟨proof, tx, refs⟩ := by
  unfold provenTxAt
  rw [hproof, ok_bind]
  unfold blockGetTx blockGetRefs txFor txpFor
  rw [hslot]
  rfl

omit [DecidableEq D] in
/-- `check_tx_refs` names the ref that it finds unknown. -/
theorem checkTxRefs_unknown {C : Crypto D} {y : Nat} {tx : Tx D} {refs : List InputRef}
    {bad : Option (Nat × BlockId)} [DecidableEq D]
    (h : checkTxRefs C s y tx refs = .ok (.unknown, bad)) : bad.isSome := by
  have key : ∀ (l : List (Input D × InputRef)) (i : Nat) (unknown : Option (Nat × BlockId)),
      checkTxRefsFrom C s y l i unknown = .ok (.unknown, bad) → bad.isSome := by
    intro l
    induction l with
    | nil =>
      intro i unknown h
      cases unknown with
      | none => exact absurd (Except.ok.inj h) (by simp)
      | some u =>
        obtain ⟨-, rfl⟩ := Prod.mk.inj (Except.ok.inj h)
        rfl
    | cons inpRef rest ih =>
      obtain ⟨inp, ref⟩ := inpRef
      intro i unknown h
      unfold checkTxRefsFrom at h
      split at h
      · exact absurd h (by simp)
      · exact ih _ _ h
      · split_ifs at h
        · exact absurd (Except.ok.inj h) (by simp)
        · exact ih _ _ h
  unfold checkTxRefs at h
  obtain ⟨_, -, h⟩ := of_bind_eq_ok h
  exact key _ _ _ h

/-- **With no input known in full and no ref to another transaction**, the check of a
transaction in a block has nothing to complain about. -/
theorem checkTxInputsAndRefs_noted {y : Nat} {t : ProvenTx D} (hne : txInputs t.tx ≠ [])
    (hinputs : ∀ inp ∈ txInputs t.tx, ∀ x i j : Nat, Lies s inp.input y (x, i, j) →
      blockGetTx s x i j = none)
    (hrefs : ∃ r, ∀ s', Noted s s' → checkTxRefs E.crypto s' y t.tx t.refs = .ok r ∧
      r.1 ≠ .badHash) :
    ∃ s', checkTxInputsAndRefs E s y t = .ok (s', true) ∧ Noted s s' := by
  obtain ⟨n, inp, hinp, hcheck⟩ := @checkTxInputs_unknown D _ _ E s y none t.tx hne hinputs
  obtain ⟨⟨rerr, bad⟩, hrefs⟩ := hrefs
  obtain ⟨s₂, hasked, hnoted⟩ : ∃ s₂, complainAboutInputs E s y t .unknown n = .ok (s₂, true) ∧
      Noted s s₂ := by
    unfold complainAboutInputs
    dsimp only
    rw [hinp]
    simp only [deref, ok_bind]
    split_ifs
    · exact ⟨_, rfl, noted_emit s _⟩
    · exact ⟨_, rfl, .refl s⟩
  refine ⟨s₂, ?_, hnoted⟩
  obtain ⟨hcheckRefs, hgood⟩ := hrefs s₂ hnoted
  have hnone : complainAboutRefs E s₂ y t .unknown = .ok (s₂, true) := by
    unfold complainAboutRefs
    rw [hcheckRefs, ok_bind]
    cases rerr with
    | ok => rfl
    | unknown =>
      obtain ⟨⟨i, x⟩, rfl⟩ := Option.isSome_iff_exists.mp (checkTxRefs_unknown hcheckRefs)
      rfl
    | badHash => exact absurd rfl hgood
  unfold checkTxInputsAndRefs
  rw [hcheck, ok_bind]
  dsimp only
  rw [hasked, ok_bind]
  exact hnone

section

variable (h : Filling E s₁ b k m s) (hj : JustMined E s₁ b)
include h hj

/-- A transaction of another block that stays quiet, checked again. -/
theorem Filling.recheckPlace {y i j : Nat} {tx : Tx D} {refs : List InputRef} (hy : y ≠ b)
    (hquiet : StaysQuiet E s₁ y i j) (hslot : (s₁.shardOf y i).u j = .tx tx refs)
    (hne : txInputs tx ≠ []) :
    ∃ t s', provenTxAt E.crypto s y i j = .ok t ∧
      checkTxInputsAndRefs E s y t = .ok (s', true) ∧ Noted s s' := by
  have hbeside := h.beside hj
  have hshard := hbeside.shardOf_eq hy i
  have hled : LedgerOk E s₁ := ⟨hj.ledger, hj.kept⟩
  obtain ⟨proof, hproof⟩ := hled.createProof_ok (entryAt_tx hslot)
  rw [← createProof_congr hshard (by rw [h.blk y])] at hproof
  rw [← hshard] at hslot
  suffices hcheck : ∃ s', checkTxInputsAndRefs E s y ⟨proof, tx, refs⟩ = .ok (s', true) ∧
      Noted s s' by
    obtain ⟨s', hcheck, hnoted⟩ := hcheck
    exact ⟨_, s', provenTxAt_ok hslot hproof, hcheck, hnoted⟩
  refine checkTxInputsAndRefs_noted hne (fun inp hinp x i' j' hlies => ?_) ?_
  · -- what lies before the block lay there before
    have hleaf : ∀ z : Nat, prevOf s z ≠ some b := fun z => h.prevOf_eq ▸ hj.leaf z
    have hold := (hbeside.lies_iff hleaf hy _).mp hlies
    rw [hbeside.blockGetTx_eq (hbeside.ne_of_lies hy hold)]
    exact hquiet.inputs tx refs (hshard ▸ hslot) inp hinp x i' j' hold
  · obtain ⟨r, hr, hgood⟩ := hquiet.refs tx refs (hshard ▸ hslot)
    refine ⟨r, fun s' hn => ⟨?_, hgood⟩⟩
    rw [((h.noted hn).beside hj).checkTxRefs_eq hy]
    exact hr

/-- `recheck_tx` asserts that the block has no complaint, and goes on. -/
theorem Filling.recheckElems_noted {tes : List (TxhashElem D)}
    (hquiet : ∀ te ∈ tes, ∀ y i j : Nat, te.loc = .inBlock y i j → y ≠ b ∧
      StaysQuiet E s₁ y i j ∧ ∀ tx refs, (s₁.shardOf y i).u j = .tx tx refs → txInputs tx ≠ [])
    (hknown : ∀ te ∈ tes, ∀ y i j : Nat, te.loc = .inBlock y i j →
      (s₁.shardOf y i).u j ≠ .unknown) :
    ∃ s', recheckElems E tes s = .ok (s', true) ∧ Noted s s' := by
  induction tes generalizing s with
  | nil => exact ⟨s, rfl, .refl s⟩
  | cons te rest ih =>
    have hrest : ∀ {s₂ : State D}, Noted s s₂ →
        ∃ s', recheckElems E rest s₂ = .ok (s', true) ∧ Noted s s' := fun {s₂} hn => by
      obtain ⟨s', hs', hn'⟩ := ih (h.noted hn)
        (fun te' hte' => hquiet te' (List.mem_cons_of_mem _ hte'))
        fun te' hte' => hknown te' (List.mem_cons_of_mem _ hte')
      exact ⟨s', hs', hn.trans hn'⟩
    unfold recheckElems
    cases hloc : te.loc with
    | pending tx => exact hrest (noted_setNeedsRecheck s)
    | inBlock y i j =>
      obtain ⟨hy, hplace, hne⟩ := hquiet te List.mem_cons_self y i j hloc
      have hslot := hknown te List.mem_cons_self y i j hloc
      have hclean : (s.blk y).complaint.isNone = true := by
        rw [h.blk y, hplace.clean]
        rfl
      dsimp only
      rw [hclean, (h.beside hj).shardOf_eq hy]
      simp only [assert, if_true, ok_bind]
      cases hu : (s₁.shardOf y i).u j with
      | unknown => exact absurd hu hslot
      | hash e =>
        have hhash : shardIsTx (s₁.shardOf y i) j = false := by
          unfold shardIsTx
          rw [hu]
        rw [hhash]
        exact hrest (.refl s)
      | tx tx refs =>
        have htx : shardIsTx (s₁.shardOf y i) j = true := by
          unfold shardIsTx
          rw [hu]
        obtain ⟨t, s₂, hproven, hcheck, hn⟩ := h.recheckPlace hj hy hplace hu (hne tx refs hu)
        rw [htx, hproven]
        simp only [Bool.not_true, Bool.false_eq_true, if_false, ok_bind]
        rw [hcheck, ok_bind]
        exact hrest hn

/-- Of the transactions that spend from a pending one. -/
theorem Filling.recheckSpenders_noted {i n : Nat} {t : PendingTx D}
    (hinj : Function.Injective E.crypto.doubleSha) (ht : t ∈ s₁.pending.pend i)
    (hn : n < numOutputs t.tx) {ies : List (InputhashElem D)}
    (hies : ∀ ie ∈ ies, ie ∈ inputhashVals s₁ (hashTx E.crypto t.tx) (UInt16.ofNat n)) :
    ∃ s', recheckSpenders E ies s = .ok (s', true) ∧ Noted s s' := by
  induction ies generalizing s with
  | nil => exact ⟨s, rfl, .refl s⟩
  | cons ie rest ih =>
    have hie := hies ie List.mem_cons_self
    obtain ⟨hmem, hkey⟩ := List.mem_filter.mp hie
    have hfrom : ie.tx = hashTx E.crypto t.tx := by
      have hboth : ie.tx = hashTx E.crypto t.tx ∧ ie.outputNum = UInt16.ofNat n := by
        simpa using hkey
      exact hboth.1
    obtain ⟨spender, hsha, inp, hinp, hin, -⟩ := hj.recorded ie hmem
    -- the spender is not pending, so its places are those it had
    have hold : ∀ te ∈ txhashVals s ie.usedBy, te ∈ s₁.txhash ∧ te.sha = ie.usedBy := by
      intro te hte
      obtain ⟨hte, hteSha⟩ := List.mem_filter.mp hte
      refine ⟨?_, beq_iff_eq.mp hteSha⟩
      rcases (h.txhash te).mp hte with hte | ⟨i', j', t', -, ht', rfl⟩
      · exact hte
      · obtain rfl : spender = t'.tx :=
          hashTx_injective hinj (hsha.trans (beq_iff_eq.mp hteSha).symm)
        exact absurd (hin.trans hfrom)
          (hj.pending.not_spent ht (List.mem_of_getElem? ht') hinp)
    have hentry : ∀ te ∈ txhashVals s ie.usedBy, ∀ y i' j' : Nat, te.loc = .inBlock y i' j' →
        ∃ e, entryAt E.crypto s₁ y i' j' = some e ∧ e.txhash = ie.usedBy := by
      intro te hte y i' j' hloc
      obtain ⟨hte, hteSha⟩ := hold te hte
      obtain ⟨-, e, he, hsame⟩ := hj.ledger.inBlock te hte y i' j' hloc
      exact ⟨e, he, hsame.trans hteSha⟩
    suffices helems : ∃ s', recheckElems E (txhashVals s ie.usedBy) s = .ok (s', true) ∧
        Noted s s' by
      obtain ⟨s₂, hs₂, hn₂⟩ := helems
      obtain ⟨s', hs', hn'⟩ := ih (h.noted hn₂) fun ie' hie' =>
        hies ie' (List.mem_cons_of_mem _ hie')
      refine ⟨s', ?_, hn₂.trans hn'⟩
      unfold recheckSpenders recheckTx
      rw [hs₂, ok_bind]
      exact hs'
    refine h.recheckElems_noted hj (fun te hte y i' j' hloc => ?_) fun te hte y i' j' hloc => ?_
    · obtain ⟨hte₁, hteSha⟩ := hold te hte
      have hmem₁ : te ∈ txhashVals s₁ ie.usedBy :=
        List.mem_filter.mpr ⟨hte₁, beq_iff_eq.mpr hteSha⟩
      refine ⟨?_, hj.undisturbed.spenders i t ht n hn ie hie te hmem₁ y i' j' hloc, ?_⟩
      · rintro rfl
        exact hj.unnamed te hte₁ i' j' hloc
      · intro tx refs hslot hnil
        obtain ⟨e, he, hsame⟩ := hentry te hte y i' j' hloc
        rw [entryAt_tx hslot] at he
        obtain rfl := Option.some.inj he
        obtain rfl : spender = tx := hashTx_injective hinj (hsha.trans hsame.symm)
        rw [hnil] at hinp
        exact absurd hinp List.not_mem_nil
    · obtain ⟨e, he, -⟩ := hentry te hte y i' j' hloc
      intro hunknown
      rw [entryAt_eq_none.mpr hunknown] at he
      exact absurd he (by simp)

/-- **`check_resolved_txs` notes at most that a recheck is due**, and asks for transactions. -/
theorem Filling.checkResolvedTxs_noted {i : Nat} {t : PendingTx D}
    (hinj : Function.Injective E.crypto.doubleSha) (ht : t ∈ s₁.pending.pend i) :
    ∃ s', checkResolvedTxs E s t.tx = .ok s' ∧ Noted s s' := by
  unfold checkResolvedTxs
  refine foldlM_ok (P := Noted s) (fun s₂ n hn hs₂ => ?_) (.refl s)
  have h₂ := h.noted hs₂
  have hvals : inputhashVals s₂ (hashTx E.crypto t.tx) (UInt16.ofNat n)
      = inputhashVals s₁ (hashTx E.crypto t.tx) (UInt16.ofNat n) := by
    unfold inputhashVals
    rw [h₂.inputhash]
  obtain ⟨s₃, hs₃, hn₃⟩ := h₂.recheckSpenders_noted hj hinj ht (List.mem_range.mp hn)
    fun ie hie => hie
  rw [← hvals] at hs₃
  refine ⟨s₃, ?_, hs₂.trans hn₃⟩
  unfold checkResolvedOutput
  rw [hs₃, ok_bind]
  rfl

end

-- ---------------------------------------------------------------------------
-- One shard moves on
-- ---------------------------------------------------------------------------

omit [DecidableEq D] in
/-- Of shard `i` of the block the first `k'` hashes are known now, the first `m'` of them as
transactions. -/
theorem Filling.moveOn (h : Filling E s₁ b k m s) {i k' m' : Nat}
    {f : BlockShard D → BlockShard D} (hnum : s'.numBlocks = s.numBlocks)
    (hblk : s'.blk = (s.modShard b i f).blk)
    (hf : f (s.shardOf b i) = partShard E.crypto i (s₁.pending.pend i) k' m')
    (hway : PartWay (s₁.pending.pend i).length k' m') (hle : k i ≤ k')
    (hpend : s'.pending.pend = s.pending.pend)
    (htxhash : ∀ te, te ∈ s'.txhash ↔ te ∈ s.txhash ∨ ∃ (j : Nat) (t : PendingTx D),
      k i ≤ j ∧ j < k' ∧ (s₁.pending.pend i)[j]? = some t ∧
        te = ⟨hashTx E.crypto t.tx, .inBlock b i j⟩)
    (hinputhash : s'.inputhash = s.inputhash) (hnow : s'.now = s.now) :
    Filling E s₁ b (Function.update k i k') (Function.update m i m') s' where
  numBlocks := hnum.trans h.numBlocks
  blk x := by
    rw [hblk, blk_modShard, h.blk x]
  old x hx := by
    rw [hblk]
    unfold State.modShard
    rw [modBlock_ne hx]
    exact h.old x hx
  shard i' := by
    show (s'.blk b).shard i' = _
    rw [hblk]
    show (s.modShard b i f).shardOf b i' = _
    by_cases hi : i' = i
    · subst hi
      rw [shardOf_modShard, hf, Function.update_self, Function.update_self]
    · rw [shardOf_modShard_ne fun hboth => hi hboth.2, Function.update_of_ne hi,
        Function.update_of_ne hi]
      exact h.shard i'
  partWay i' := by
    by_cases hi : i' = i
    · subst hi
      rw [Function.update_self, Function.update_self]
      exact hway
    · rw [Function.update_of_ne hi, Function.update_of_ne hi]
      exact h.partWay i'
  pend := hpend.trans h.pend
  txhash te := by
    rw [htxhash, h.txhash, or_assoc]
    refine or_congr_right ⟨?_, ?_⟩
    · rintro (⟨i', j, t, hj, ht, rfl⟩ | ⟨j, t, -, hj, ht, rfl⟩)
      · refine ⟨i', j, t, ?_, ht, rfl⟩
        by_cases hi : i' = i
        · subst hi
          rw [Function.update_self]
          exact hj.trans_le hle
        · rwa [Function.update_of_ne hi]
      · exact ⟨i, j, t, by rwa [Function.update_self], ht, rfl⟩
    · rintro ⟨i', j, t, hj, ht, rfl⟩
      by_cases hi : i' = i
      · subst hi
        rw [Function.update_self] at hj
        by_cases hold : j < k i'
        · exact .inl ⟨i', j, t, hold, ht, rfl⟩
        · exact .inr ⟨j, t, Nat.le_of_not_lt hold, hj, ht, rfl⟩
      · rw [Function.update_of_ne hi] at hj
        exact .inl ⟨i', j, t, hj, ht, rfl⟩
  inputhash := hinputhash.trans h.inputhash
  now := hnow.trans h.now

/-- The heads, the flags and the unknown transactions are the same. -/
structure SameSide (s s' : State D) : Prop where
  knowns : s'.longestKnowns = s.longestKnowns
  flag : ∀ x : Nat, (s'.blk x).allKnown = (s.blk x).allKnown
  unknownTx : s'.pending.unknownTx = s.pending.unknownTx
  numUnknown : s'.pending.numUnknown = s.pending.numUnknown

omit [Digest D] [DecidableEq D] in
theorem SameSide.refl (s : State D) : SameSide s s := ⟨rfl, fun _ => rfl, rfl, rfl⟩

omit [Digest D] [DecidableEq D] in
theorem SameSide.trans {s'' : State D} (h : SameSide s s') (h' : SameSide s' s'') :
    SameSide s s'' :=
  ⟨h'.knowns.trans h.knowns, fun x => (h'.flag x).trans (h.flag x),
    h'.unknownTx.trans h.unknownTx, h'.numUnknown.trans h.numUnknown⟩

omit [Digest D] [DecidableEq D] in
theorem Noted.sameSide (h : Noted s s') : SameSide s s' := by
  obtain ⟨events, due, rfl⟩ := h
  exact ⟨rfl, fun _ => rfl, rfl, rfl⟩

omit [Digest D] [DecidableEq D] in
theorem flag_modShard {y i : Nat} (f : BlockShard D → BlockShard D) (x : Nat) :
    ((s.modShard y i f).blk x).allKnown = (s.blk x).allKnown := by
  rw [blk_modShard]

-- ---------------------------------------------------------------------------
-- A hash is put
-- ---------------------------------------------------------------------------

section

variable {i : Nat} {t : PendingTx D} (h : Filling E s₁ b k m s) (hj : JustMined E s₁ b)
include h hj

/-- **The next hash of a shard is put.** -/
theorem Filling.putTxhash (hinj : Function.Injective E.crypto.doubleSha)
    (ht : (s₁.pending.pend i)[k i]? = some t) (hm : m i = 0) :
    ∃ s', putTxhashInShard E s b i (k i) (hashTxAndRefs E.crypto t.tx t.refs) = .ok (s', true) ∧
      Filling E s₁ b (Function.update k i (k i + 1)) m s' ∧ SameSide s s' := by
  have hlt : k i < (s₁.pending.pend i).length := (List.getElem?_eq_some_iff.mp ht).1
  have hshard := h.shard i
  rw [hm] at hshard
  have hunknown : txrefhashInShard E.crypto (s.shardOf b i) (k i) = none := by
    unfold txrefhashInShard
    rw [hshard, partShard_u, partSlot_unknown (Nat.zero_le _) (Nat.le_refl _)]
  have hfill : Filling E s₁ b (Function.update k i (k i + 1)) (Function.update m i 0)
      (filledWithHash E s b i (k i) (hashTxAndRefs E.crypto t.tx t.refs)) := by
    refine h.moveOn
      (f := fun shard => shard.setHash (k i) (hashTxAndRefs E.crypto t.tx t.refs)) rfl rfl ?_
      ⟨Nat.zero_le _, hlt, .inl rfl⟩ (Nat.le_succ _) rfl (fun te => ?_) rfl rfl
    · rw [hshard]
      exact setHash_partShard ht
    refine ((E.txLayout.add_perm _ _).mem_iff.trans List.mem_cons).trans (or_comm.trans ?_)
    refine or_congr_right ⟨?_, ?_⟩
    · rintro rfl
      exact ⟨k i, t, Nat.le_refl _, Nat.lt_succ_self _, ht, rfl⟩
    · rintro ⟨j, t', hle, hlt', ht', rfl⟩
      obtain rfl : j = k i := by omega
      obtain rfl := Option.some.inj (ht.symm.trans ht')
      rfl
  rw [show Function.update m i 0 = m by rw [← hm, Function.update_eq_self]] at hfill
  have hside : SameSide s (filledWithHash E s b i (k i) (hashTxAndRefs E.crypto t.tx t.refs)) :=
    ⟨rfl, flag_modShard fun shard => shard.setHash (k i) (hashTxAndRefs E.crypto t.tx t.refs),
      rfl, rfl⟩
  refine ⟨_, ?_, hfill, hside⟩
  have hcheck := hfill.checkBlockShard_ok hj hinj (List.ne_nil_of_length_pos (by omega : 0 <
    (s₁.pending.pend i).length)) .checkShardAfterHash
  unfold putTxhashInShard
  rw [hunknown]
  dsimp only
  unfold filledWithHash at hcheck
  rw [hcheck]
  rfl

end

/-- **All the hashes of a shard are put**, from slot `n` on. -/
theorem Filling.putTxhashes {i : Nat} (hj : JustMined E s₁ b)
    (hinj : Function.Injective E.crypto.doubleSha) (rest : List (PendingTx D)) {n : Nat}
    (h : Filling E s₁ b k m s) (hk : k i = n) (hm : m i = 0)
    (hrest : (s₁.pending.pend i).drop n = rest) :
    ∃ s', putTxhashesInShard E b i (rest.map fun t => hashTxAndRefs E.crypto t.tx t.refs) n s
        = .ok s' ∧
      Filling E s₁ b (Function.update k i (n + rest.length)) m s' ∧ SameSide s s' := by
  induction rest generalizing n k s with
  | nil =>
    refine ⟨s, rfl, ?_, .refl s⟩
    rw [List.length_nil, Nat.add_zero, ← hk, Function.update_eq_self]
    exact h
  | cons t rest ih =>
    have ht : (s₁.pending.pend i)[k i]? = some t := by
      rw [hk, ← List.head?_drop, hrest]
      rfl
    obtain ⟨s₂, hput, hfill, hside⟩ := h.putTxhash hj hinj ht hm
    have hdrop : (s₁.pending.pend i).drop (n + 1) = rest := by
      rw [← List.tail_drop, hrest]
      rfl
    obtain ⟨s', hs', hfill', hside'⟩ := ih hfill
      (by rw [Function.update_self, hk]) hdrop
    refine ⟨s', ?_, ?_, hside.trans hside'⟩
    · rw [List.map_cons]
      unfold putTxhashesInShard
      rw [← hk, hput, ok_bind]
      rw [hk]
      exact hs'
    · rw [Function.update_idem] at hfill'
      rw [List.length_cons, ← Nat.add_assoc, Nat.add_right_comm]
      exact hfill'

-- ---------------------------------------------------------------------------
-- The pending transaction is found
-- ---------------------------------------------------------------------------

section

variable {i : Nat} {t : PendingTx D} (h : Filling E s₁ b k m s) (hj : JustMined E s₁ b)
  (hinj : Function.Injective E.crypto.doubleSha) (ht : t ∈ s₁.pending.pend i)
include h hj hinj ht

omit ht in
/-- An element under the hash of a pending transaction is of that transaction. -/
theorem Filling.txhashTx_eq {te : TxhashElem D}
    (hte : te ∈ txhashVals s (hashTx E.crypto t.tx)) {tx : Tx D} (htx : txhashTx s te = some tx) :
    tx = t.tx := by
  obtain ⟨hmem, hsha⟩ := List.mem_filter.mp hte
  rw [beq_iff_eq] at hsha
  refine hashTx_injective hinj (Eq.trans ?_ hsha)
  unfold txhashTx at htx
  rcases (h.txhash te).mp hmem with hold | ⟨i', j, t', -, ht', rfl⟩
  · cases hloc : te.loc with
    | pending tx' =>
      rw [hloc] at htx
      obtain rfl := Option.some.inj htx
      exact (hj.ledger.pending te hold tx' hloc).symm
    | inBlock y i' j =>
      have hy : y ≠ b := by
        rintro rfl
        exact hj.unnamed te hold i' j hloc
      obtain ⟨-, e, he, hesha⟩ := hj.ledger.inBlock te hold y i' j hloc
      rw [hloc] at htx
      dsimp only at htx
      rw [(h.beside hj).shardOf_eq hy] at htx
      unfold txFor at htx
      split at htx
      · rename_i tx' refs hslot
        obtain rfl := Option.some.inj htx
        rw [entryAt_tx hslot] at he
        obtain rfl := Option.some.inj he
        exact hesha
      · exact absurd htx (by simp)
  · dsimp only at htx
    unfold txFor at htx
    split at htx
    · rename_i tx' refs hslot
      obtain rfl := Option.some.inj htx
      rw [h.shard, partShard_u, partSlot_eq_tx] at hslot
      obtain rfl := Option.some.inj (ht'.symm.trans hslot.1)
      rfl
    · exact absurd htx (by simp)

/-- There is one in pending. -/
theorem Filling.pendingElem :
    ∃ te ∈ txhashVals s (hashTx E.crypto t.tx), te.loc = .pending t.tx := by
  obtain ⟨te, hmem, hsha, hpending⟩ := heldPending_iff.mp (hj.pending.held i t ht)
  have hmem' : te ∈ s.txhash := (h.txhash te).mpr (.inl hmem)
  have hte : te ∈ txhashVals s (hashTx E.crypto t.tx) :=
    List.mem_filter.mpr ⟨hmem', beq_iff_eq.mpr hsha⟩
  refine ⟨te, hte, ?_⟩
  unfold TxhashElem.isInBlock at hpending
  cases hloc : te.loc with
  | pending tx =>
    refine congrArg TxWhere.pending (h.txhashTx_eq hj hinj hte ?_)
    unfold txhashTx
    rw [hloc]
  | inBlock y i' j =>
    rw [hloc] at hpending
    exact absurd hpending (by simp)

/-- **`find_tx_with_ref` finds the pending transaction**, with the refs it is pending with. -/
theorem Filling.findTxWithRef_eq :
    findTxWithRef E s b (hashTxAndRefs E.crypto t.tx t.refs) = some (t.tx, t.refs) := by
  have hrefs := h.createRefs_eq hj ht
  have hrefhash : hashRefs E.crypto t.refs = (hashTxAndRefs E.crypto t.tx t.refs).refhash := rfl
  obtain ⟨te, hte, hloc⟩ := h.pendingElem hj hinj ht
  unfold findTxWithRef
  cases hfind : (txhashVals s (hashTxAndRefs E.crypto t.tx t.refs).txhash).findSome? fun te => do
      let tx ← txhashTx s te
      let refs ← createRefs s b tx 0
      if hashRefs E.crypto refs = (hashTxAndRefs E.crypto t.tx t.refs).refhash then
        some (tx, refs)
      else none with
  | none =>
    have hnone := List.findSome?_eq_none_iff.mp hfind te hte
    have htx : txhashTx s te = some t.tx := by
      unfold txhashTx
      rw [hloc]
    rw [htx, Option.bind_eq_bind, Option.bind_some, hrefs, Option.bind_eq_bind, Option.bind_some,
      if_pos hrefhash] at hnone
    exact absurd hnone (by simp)
  | some found =>
    obtain ⟨te', hte', hsome⟩ := List.exists_of_findSome?_eq_some hfind
    obtain ⟨tx, htx, hsome⟩ := Option.bind_eq_some_iff.mp hsome
    obtain ⟨refs, hrefs', hsome⟩ := Option.bind_eq_some_iff.mp hsome
    obtain rfl := h.txhashTx_eq hj hinj hte' htx
    rw [hrefs] at hrefs'
    obtain rfl := Option.some.inj hrefs'
    rw [if_pos hrefhash] at hsome
    exact hsome.symm

end

-- ---------------------------------------------------------------------------
-- It is in order
-- ---------------------------------------------------------------------------

omit [Digest D] [DecidableEq D] in
theorem txFor_partShard {C : Crypto D} [Digest D] {l : List (PendingTx D)} {i k m j : Nat}
    {tx : Tx D} : txFor (partShard C i l k m) j = some tx ↔
      ∃ t, l[j]? = some t ∧ j < m ∧ t.tx = tx := by
  unfold txFor
  rw [partShard_u]
  constructor
  · intro h
    split at h
    · rename_i tx' refs hslot
      obtain rfl := Option.some.inj h
      obtain ⟨hl, hj⟩ := partSlot_eq_tx.mp hslot
      exact ⟨_, hl, hj, rfl⟩
    · exact absurd h (by simp)
  · rintro ⟨t, hl, hj, rfl⟩
    rw [partSlot_eq_tx.mpr ⟨hl, hj⟩]

omit [DecidableEq D] in
/-- The transactions of such a shard are in order. -/
theorem shardOrdered_partShard {l : List (PendingTx D)} {i k m : Nat}
    (hsorted : l.Pairwise fun t t' => TxBefore E t.tx t'.tx) :
    ShardOrdered E (partShard E.crypto i l k m) := by
  intro j j' tx tx' hlt htx htx'
  obtain ⟨t, ht, -, rfl⟩ := txFor_partShard.mp htx
  obtain ⟨t', ht', -, rfl⟩ := txFor_partShard.mp htx'
  obtain ⟨hj, rfl⟩ := List.getElem?_eq_some_iff.mp ht
  obtain ⟨hj', rfl⟩ := List.getElem?_eq_some_iff.mp ht'
  exact List.pairwise_iff_getElem.mp hsorted j j' hj hj' hlt

omit [DecidableEq D] in
theorem countsTxs_partShard {C : Crypto D} {l : List (PendingTx D)} {i k m : Nat} :
    CountsTxs (partShard C i l k m) where
  none_beyond j hj := by
    by_contra hne
    obtain ⟨tx, htx⟩ := Option.ne_none_iff_exists'.mp hne
    obtain ⟨t, ht, -, -⟩ := txFor_partShard.mp htx
    have hlt := (List.getElem?_eq_some_iff.mp ht).1
    exact absurd hj (Nat.not_le.mpr hlt)
  none_known hcount j := by
    by_contra hne
    obtain ⟨tx, htx⟩ := Option.ne_none_iff_exists'.mp hne
    obtain ⟨t, -, hlt, -⟩ := txFor_partShard.mp htx
    have hzero : m = 0 := hcount
    omega

omit [DecidableEq D] in
/-- **`check_tx_ordering` passes** the next transaction. -/
theorem checkTxOrdering_partShard {l : List (PendingTx D)} {i k m : Nat} {t : PendingTx D}
    (hsorted : l.Pairwise fun t t' => TxBefore E t.tx t'.tx) (ht : l[m]? = some t) (hm : m < k) :
    checkTxOrdering E (partShard E.crypto i l k m) m t.tx = none := by
  refine (checkTxOrdering_eq_none (shardOrdered_partShard hsorted) countsTxs_partShard t.refs).mpr ?_
  have hnext : txFor ((partShard E.crypto i l k m).setTx m t.tx t.refs)
      = txFor (partShard E.crypto i l k (m + 1)) := by
    rw [← upgradeTx_partShard ht hm]
    rfl
  unfold ShardOrdered
  rw [hnext]
  exact shardOrdered_partShard hsorted

end Pettycoin
