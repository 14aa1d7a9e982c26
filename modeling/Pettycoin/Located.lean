import Pettycoin.NoTrace
import Pettycoin.Slots

/-!
# Pettycoin — what txhash finds

The elements of `txhash` that name places in blocks are for a lookup what the slots of the
shards are for a position: each is entered when the slot is filled, and taken out when the
block gets a complaint. That both agree is what a search for a transaction, or for who spends
an output, relies on (`txhash_agrees`).

* `Step.known` — what one step makes known;
* `knownNamed_of_nodeReach` — every known place is named, over whole runs;
* `txhash_agrees` — the table and the blocks, both ways.
-/

namespace Pettycoin

open ExceptRules Relation

variable {D : Type} [Digest D] [DecidableEq D] {E : Env D} {s s' : State D} {b : Nat}

-- ---------------------------------------------------------------------------
-- Slots that become known
-- ---------------------------------------------------------------------------

omit [Digest D] [DecidableEq D] in
theorem Invalidated.shardOf_eq {complaint : Complaint D} {blocks : List BlockId}
    (h : Invalidated complaint blocks s s') (x : Nat) : s'.shardOf x = s.shardOf x := by
  unfold State.shardOf
  rw [h.blk x]
  split_ifs <;> rfl

omit [Digest D] [DecidableEq D] in
/-- In a shard that gets one more slot, the other slots stay. -/
theorem known_modShard {shardnum txoff : Nat} {f : BlockShard D → BlockShard D} {slot : Slot D}
    (hf : (f (s.shardOf b shardnum)).u = Function.update (s.shardOf b shardnum).u txoff slot)
    {x i j : Nat} (hu : ((s.modShard b shardnum f).shardOf x i).u j ≠ .unknown) :
    (x = b ∧ i = shardnum ∧ j = txoff) ∨ (s.shardOf x i).u j ≠ .unknown := by
  by_cases hplace : x = b ∧ i = shardnum
  · obtain ⟨rfl, rfl⟩ := hplace
    rw [shardOf_modShard, hf] at hu
    by_cases hj : j = txoff
    · exact .inl ⟨rfl, rfl, hj⟩
    · rw [Function.update_of_ne hj] at hu
      exact .inr hu
  · rw [shardOf_modShard_ne hplace] at hu
    exact .inr hu

omit [Digest D] [DecidableEq D] in
theorem named_of_add {te : TxhashElem D} {shardnum txoff : Nat}
    (ht : s'.txhash = E.txLayout.add s.txhash te) (hloc : te.loc = .inBlock b shardnum txoff) :
    Named s' b shardnum txoff := by
  refine ⟨te, ?_, hloc⟩
  rw [ht]
  exact (E.txLayout.add_perm _ _).mem_iff.mpr List.mem_cons_self

/-- What is known was known before, or is named now. -/
theorem Step.known {g : Slot D → Prop} (h : Step E g s s') (hr : Registry E s) {x i j : Nat}
    (hx : x < s'.numBlocks) (hu : (s'.shardOf x i).u j ≠ .unknown) :
    (x < s.numBlocks ∧ (s.shardOf x i).u j ≠ .unknown) ∨ Named s' x i j := by
  have hminor : Minor s s' → (x < s.numBlocks ∧ (s.shardOf x i).u j ≠ .unknown) ∨ Named s' x i j := by
    intro hm
    rw [hm.toSameBlocks.shardOf_eq] at hu
    exact .inl ⟨hm.numBlocks ▸ hx, hu⟩
  cases h with
  | quiet hq => exact hminor ((Minor.refl s).quiet hq)
  | recheckPending h => exact hminor ((recheckPendingTxs_calm (.refl s)).of_ok h).toMinor
  | addPending tx r _ h => exact hminor ((addPendingTx_calm (.refl s) tx).of_ok h).toMinor
  | dropPending tx h => exact hminor ((dropPendingTx_calm (.refl s) tx).of_ok h).toMinor
  | invalidate b complaint _ _ _ h =>
    have hinv := hr.toLedger.complaintOnAll_spec hr.once h
    rw [hinv.shardOf_eq] at hu
    exact .inl ⟨hinv.numBlocks ▸ hx, hu⟩
  | fillUnknown b shardnum txoff tx refs hb _ _ _ _ =>
    rcases known_modShard (f := fun shard => shard.setTx txoff tx refs) rfl hu with
      ⟨rfl, rfl, rfl⟩ | hold
    · exact .inr (named_of_add rfl rfl)
    · exact .inl ⟨hx, hold⟩
  | fillHash b shardnum txoff tx refs hb hslot _ _ =>
    rcases known_modShard (f := fun shard => shard.upgradeTx txoff tx refs) rfl hu with
      ⟨rfl, rfl, rfl⟩ | hold
    · exact .inl ⟨hx, fun hnone => absurd (hslot.symm.trans hnone) (by simp)⟩
    · exact .inl ⟨hx, hold⟩
  | setHash b shardnum txoff h hb _ _ _ =>
    rcases known_modShard (f := fun shard => shard.setHash txoff h) rfl hu with
      ⟨rfl, rfl, rfl⟩ | hold
    · exact .inr (named_of_add rfl rfl)
    · exact .inl ⟨hx, hold⟩
  | storeProofs b shardnum f =>
    refine .inl ⟨hx, ?_⟩
    by_cases hplace : x = b ∧ i = shardnum
    · obtain ⟨rfl, rfl⟩ := hplace
      rw [shardOf_modShard] at hu
      exact hu
    · rw [shardOf_modShard_ne hplace] at hu
      exact hu
  | sew prev nb hadd =>
    rw [slot_sewBlock nb hadd.prev_lt] at hu
    split_ifs at hu with hnew
    · exact absurd rfl hu
    · have hlt := (sewBlock_same s prev nb).1 ▸ hx
      exact .inl ⟨by omega, hu⟩

-- ---------------------------------------------------------------------------
-- What is known is named
-- ---------------------------------------------------------------------------

/-- The places that are known, in the blocks without a complaint, are named. -/
def KnownNamed (s : State D) : Prop :=
  ∀ b i j : Nat, b < s.numBlocks → (s.blk b).complaint = none →
    (s.shardOf b i).u j ≠ .unknown → Named s b i j

/-- Every step names what it fills in, and takes out only what it complains about. -/
theorem Step.knownNamed {g : Slot D → Prop} (h : Step E g s s') (hr : Registry E s)
    (hk : KnownNamed s) : KnownNamed s' := by
  intro x i j hx hc hu
  rcases h.known hr hx hu with ⟨hold, huold⟩ | hnamed
  · cases (h.renamed hr).2 with
    | same hp hcs =>
      have hnamed := hk x i j hold ((hcs x hold).symm.trans hc) huold
      rw [named_iff_placed] at hnamed ⊢
      simpa only [hp.mem_iff] using hnamed
    | invalidated complaint blocks hinv =>
      have hout : x ∉ blocks := by
        intro hin
        rw [hinv.blk x, if_pos hin] at hc
        cases hc
      rw [hinv.blk x, if_neg hout] at hc
      obtain ⟨te, hte, hloc⟩ := named_iff_placed.mp (hk x i j hold hc huold)
      refine named_iff_placed.mpr ⟨te, ?_, hloc⟩
      rw [hinv.placed, List.mem_filter]
      refine ⟨hte, ?_⟩
      by_contra hin
      obtain ⟨y, i', j', hloc', hy⟩ := TxhashElem.inBlocks_iff.mp
        (by simpa using hin : te.inBlocks blocks = true)
      have hsame := hloc.symm.trans hloc'
      injection hsame with hxy
      exact hout (hxy ▸ hy)
    | named b shardnum txoff _ _ hiff hcs =>
      exact (hiff x i j).mpr (.inr (hk x i j hold ((hcs x).symm.trans hc) huold))
  · exact hnamed

theorem knownNamed_of_nodeReach (h : NodeReach E s) : KnownNamed s := by
  refine h.preserves (fun sha merkle nonce2 tailer now opts b i j _ _ hu => ?_)
    fun s s' hr hstep hk => hstep.knownNamed hr hk
  rw [slot_startNode] at hu
  exact absurd rfl hu

/-- **Lookups agree with the blocks.** Whatever a node has been sent: of the elements that
`txhash` has under a hash and that are in a block, each names a place in a block at which this
hash is known, and none is there twice; and every place that is known in a block without a
complaint is found under its hash. As long as nothing is put into an unknown slot of a block
that has a complaint, they are these places and no others. -/
theorem txhash_agrees (h : NodeReach E s) :
    (∀ sha : D, ((txhashVals s sha).filter TxhashElem.isInBlock).Nodup) ∧
    (∀ (sha : D) (b i j : Nat), ⟨sha, .inBlock b i j⟩ ∈ txhashVals s sha →
      b < s.numBlocks ∧ ∃ e, entryAt E.crypto s b i j = some e ∧ e.txhash = sha) ∧
    (∀ (b i j : Nat) (e : TxRefHash D), b < s.numBlocks → (s.blk b).complaint = none →
      entryAt E.crypto s b i j = some e → ⟨e.txhash, .inBlock b i j⟩ ∈ txhashVals s e.txhash) ∧
    (CleanReach E s → ∀ (sha : D) (b i j : Nat), ⟨sha, .inBlock b i j⟩ ∈ txhashVals s sha ↔
      b < s.numBlocks ∧ (s.blk b).complaint = none ∧
        ∃ e, entryAt E.crypto s b i j = some e ∧ e.txhash = sha) := by
  have hr := registry_of_nodeReach h
  have hvals : ∀ {te : TxhashElem D} {sha : D},
      te ∈ txhashVals s sha ↔ te ∈ s.txhash ∧ te.sha = sha := by
    intro te sha
    unfold txhashVals
    rw [List.mem_filter, beq_iff_eq]
  have hsound : ∀ (sha : D) (b i j : Nat), ⟨sha, .inBlock b i j⟩ ∈ txhashVals s sha →
      b < s.numBlocks ∧ ∃ e, entryAt E.crypto s b i j = some e ∧ e.txhash = sha :=
    fun sha b i j hmem => hr.inBlock _ (hvals.mp hmem).1 b i j rfl
  have hfound : ∀ (b i j : Nat) (e : TxRefHash D), b < s.numBlocks → (s.blk b).complaint = none →
      entryAt E.crypto s b i j = some e → ⟨e.txhash, .inBlock b i j⟩ ∈ txhashVals s e.txhash := by
    intro b i j e hb hc hentry
    obtain ⟨⟨sha, loc⟩, hte, hloc⟩ := knownNamed_of_nodeReach h b i j hb hc fun hu => by
      rw [entryAt_eq_none.mpr hu] at hentry
      cases hentry
    obtain rfl : loc = .inBlock b i j := hloc
    obtain ⟨-, e', hentry', hsha⟩ := hr.inBlock _ hte b i j rfl
    obtain rfl := Option.some.inj (hentry.symm.trans hentry')
    obtain rfl : e.txhash = sha := hsha
    exact hvals.mpr ⟨hte, rfl⟩
  refine ⟨fun sha => ?_, hsound, hfound, fun hclean sha b i j => ⟨fun hmem => ?_, ?_⟩⟩
  · -- the places of one hash are some of the places of all
    have hcomm : (txhashVals s sha).filter TxhashElem.isInBlock =
        (placed s).filter fun te => te.sha == sha := by
      unfold txhashVals placed
      rw [List.filter_filter, List.filter_filter]
      exact List.filter_congr fun te _ => Bool.and_comm _ _
    rw [hcomm]
    exact hr.once.filter _
  · obtain ⟨hb, hentry⟩ := hsound sha b i j hmem
    exact ⟨hb, hclean.noTrace b i j ⟨_, (hvals.mp hmem).1, rfl⟩, hentry⟩
  · rintro ⟨hb, hc, e, hentry, rfl⟩
    exact hfound b i j e hb hc hentry

/-- The transaction of the first block that came in is found under its hash. -/
theorem txhash_agrees_first : ∃ s e, NodeReach idealEnv s ∧
    entryAt idealCrypto s 1 0 0 = some e ∧
      ⟨e.txhash, .inBlock 1 0 0⟩ ∈ txhashVals s e.txhash := by
  have hrun : (nodeRun idealEnv sampleNode (sampleTrace.take 2) >>= fun s =>
      .ok (decide (1 < s.numBlocks), (s.blk 1).complaint.isNone,
        (entryAt idealCrypto s 1 0 0).isSome)) = .ok (true, true, true) := by
    decide +kernel
  obtain ⟨s, hs, hchecks⟩ := of_bind_eq_ok hrun
  injection hchecks with hchecks
  simp only [Prod.mk.injEq, decide_eq_true_eq, Option.isNone_iff_eq_none] at hchecks
  obtain ⟨hb, hc, hentry⟩ := hchecks
  obtain ⟨e, he⟩ := Option.isSome_iff_exists.mp hentry
  have hreach : NodeReach idealEnv s := nodeReach_sampleNode.run hs
  exact ⟨s, e, hreach, he, (txhash_agrees hreach).2.2.1 1 0 0 e hb hc he⟩

end Pettycoin
