import Pettycoin.GossipSteps
import Pettycoin.NoTrace
import Pettycoin.StoredProofs

/-!
# Pettycoin — what is known can be proven

`create_proof` is called for an entry of a block that is known, by the replies to requests and
by the complaints. It hands out the proof that is stored for the place, or builds one out of
the whole shard, which it asserts is known.

* `known_entries_provable` — in every state that a node reaches, the assertion holds for every
  entry known. A stored proof is good for every node that has the block. One that is built is
  good exactly where the subtrees `create_proof` starts from agree, as long as the root over
  what is known is the one that the block states: a block may state another one, with junk
  for a leaf behind its last transaction.
-/

namespace Pettycoin

open ExceptRules

variable {D : Type} [Digest D] [DecidableEq D] {E : Env D} {p : State D} {b i j : Nat}

/-- The block states the root over what the node knows of the shard. -/
def RootStated (C : Crypto D) (p : State D) (b i : Nat) : Prop :=
  ∃ m, merkleTxs C (p.shardOf b i) = .ok m ∧ (p.blk b).merkles[i]? = some m

/-- A node that has the same block. -/
structure SameBlock (blk blk' : Block D) : Prop where
  hdr : blk'.hdr = blk.hdr
  shardNums : blk'.shardNums = blk.shardNums
  merkles : blk'.merkles = blk.merkles

theorem SameBlock.proves_iff {C : Crypto D} {blk blk' : Block D} (h : SameBlock blk blk')
    {e : TxRefHash D} {proof : Proof D} :
    Proves C blk' i j e proof ↔ Proves C blk i j e proof := by
  have hsame := checkProofByhash_congr (C := C) h.hdr h.shardNums h.merkles proof e
  exact ⟨fun hp => ⟨hp.shard, hp.txoff, hsame.symm.trans hp.accepted⟩,
    fun hp => ⟨hp.shard, hp.txoff, hsame.trans hp.accepted⟩⟩

/-- What `create_proof` makes of an entry that is known names the place of it. -/
theorem createProof_of_entry (hreach : NodeReach E p) {e : TxRefHash D}
    (hentry : entryAt E.crypto p b i j = some e) :
    ∃ proof, createProof E.crypto p b i j = .ok proof ∧ proof.pos.block = (p.blk b).sha ∧
      proof.pos.shard.toNat = i ∧ proof.pos.txoff.toNat = j := by
  have hl := ledgerOk_of_nodeReach hreach
  obtain ⟨hrange, hoff⟩ := hl.in_range hentry
  cases hstored : (p.shardOf b i).proof.bind (· j) with
  | some stored =>
    obtain ⟨e', hproves⟩ :=
      proofsRight_of_opReach (opReach_of_nodeReach hreach) b i j stored hstored
    refine ⟨stored, ?_, hreach.labels.proofs b i j stored hstored, hproves.shard, hproves.txoff⟩
    simp only [createProof, hstored]
  | none =>
    have hall : shardAllHashes (p.shardOf b i) = true := by
      rcases hl.proofs b i j e hentry with hall | hsome
      · exact hall
      · rw [hstored] at hsome
        cases hsome
    have hshards : (p.blk b).numShards = 4 := by
      unfold Block.numShards
      rw [hl.shardOrder]
      rfl
    have hsize := hl.size b i
    have hbyte := (p.blk b).shardSize_lt i
    exact ⟨_, createProof_eq_builtProof hstored hall (hl.filled hall), rfl,
      UInt16.toNat_ofNat_of_lt' (hrange.trans_le (by rw [hshards]; decide)),
      UInt8.toNat_ofNat_of_lt' (by simp [UInt8.size]; omega)⟩

/-- The proof that is built is accepted exactly if the node accepts it itself. -/
theorem proofAccepted_iff_proves {C : Crypto D} {e : TxRefHash D} {proof : Proof D}
    (hentry : entryAt C p b i j = some e) (hproof : createProof C p b i j = .ok proof)
    (hshard : proof.pos.shard.toNat = i) (htxoff : proof.pos.txoff.toNat = j) :
    ProofAccepted C p b i j ↔ Proves C (p.blk b) i j e proof := by
  constructor
  · rintro ⟨proof', hsame, -, hhash⟩
    obtain rfl := Except.ok.inj (hproof.symm.trans hsame)
    exact ⟨hshard, htxoff, hhash e hentry⟩
  · refine fun hproves => ⟨proof, hproof, fun tx refs hslot => ?_, fun e' hentry' => ?_⟩
    · obtain rfl := Option.some.inj (hentry.symm.trans (entryAt_tx hslot))
      exact hproves.accepted
    · obtain rfl := Option.some.inj (hentry.symm.trans hentry')
      exact hproves.accepted

/-- A shard of which a proof is built is known in full. -/
theorem shardCommitted_of_unstored (hl : LedgerOk E p) {e : TxRefHash D}
    (hentry : entryAt E.crypto p b i j = some e)
    (hstored : (p.shardOf b i).proof.bind (· j) = none) (hroot : RootStated E.crypto p b i) :
    ShardCommitted E.crypto p b i := by
  have hrange := (hl.in_range hentry).1
  have hshards : (p.blk b).numShards = 4 := by
    unfold Block.numShards
    rw [hl.shardOrder]
    rfl
  rcases hl.proofs b i j e hentry with hall | hsome
  · exact ⟨hrange, hrange.trans_le (by rw [hshards]; decide), hl.size b i, hl.filled hall, hall,
      hroot⟩
  · rw [hstored] at hsome
    cases hsome

/-- **What is known can be proven.** Whatever a node has been sent, for all that it knows of its
blocks `create_proof` makes a proof: no assertion fails, also where a shard is known in part.
Without collisions no node that has the block accepts the proof for another entry, and each
accepts it for this one if it is a stored one. A proof that is built is accepted, where the
block states the root over what is known, exactly if the subtrees that `create_proof` starts
from agree. -/
theorem known_entries_provable (hreach : NodeReach E p) {e : TxRefHash D}
    (hentry : entryAt E.crypto p b i j = some e) :
    ∃ proof, createProof E.crypto p b i j = .ok proof ∧
      (Function.Injective E.crypto.doubleSha → ∀ blk' : Block D, SameBlock (p.blk b) blk' →
        (∀ e', Proves E.crypto blk' i j e' proof → e' = e) ∧
        (((p.shardOf b i).proof.bind (· j)).isSome → Proves E.crypto blk' i j e proof) ∧
        ((p.shardOf b i).proof.bind (· j) = none → RootStated E.crypto p b i →
          (∀ m, E.crypto.doubleSha m ≠ Digest.zero) →
          (Proves E.crypto blk' i j e proof ↔ StartsAgree E.crypto (p.shardOf b i) j))) := by
  have hl := ledgerOk_of_nodeReach hreach
  obtain ⟨proof, hproof, -, hshard, htxoff⟩ := createProof_of_entry hreach hentry
  refine ⟨proof, hproof, fun hC blk' hsame => ⟨fun e' h => ?_, fun hstored => ?_,
    fun hstored hroot hzero => ?_⟩⟩
  · exact ((hl.proven b i j e hentry).unique hC ⟨proof, hsame.proves_iff.mp h⟩).symm
  · obtain ⟨stored, hstored⟩ := Option.isSome_iff_exists.mp hstored
    obtain rfl : stored = proof := by
      simp only [createProof, hstored] at hproof
      exact Except.ok.inj hproof
    exact hsame.proves_iff.mpr (storedProof_accepted hreach hC hstored hentry)
  · have hcommitted := shardCommitted_of_unstored hl hentry hstored hroot
    have hoff := (hl.in_range hentry).2
    rw [hsame.proves_iff, ← proofAccepted_iff_proves hentry hproof hshard htxoff]
    exact ⟨startsAgree_of_proofAccepted hC hzero hcommitted hstored hoff,
      proofAccepted_of_startsAgree hcommitted hstored hoff⟩

/-- A block of two transactions, of which the first is known. -/
def halfKnown : List (NodeEvent IdealDigest) :=
  [sampleHeader (lightBlock .zero 1 4 samplePair),
    samplePacket (lightBlock .zero 1 4 samplePair) samplePair 0 (samplePayment, [])]

/-- The proof that came with it is good for other nodes. When a block of two transactions is
known in full, so is the one that is built for the second. -/
theorem known_entries_provable_pair :
    (∃ s e proof, NodeReach idealEnv s ∧ shardAllHashes (s.shardOf 1 0) = false ∧
      entryAt idealCrypto s 1 0 0 = some e ∧ createProof idealCrypto s 1 0 0 = .ok proof ∧
      Proves idealCrypto (s.blk 1) 0 0 e proof) ∧
    ∃ s e proof, NodeReach idealEnv s ∧ (s.shardOf 1 0).proof.isNone ∧
      entryAt idealCrypto s 1 0 1 = some e ∧ createProof idealCrypto s 1 0 1 = .ok proof ∧
      Proves idealCrypto (s.blk 1) 0 1 e proof := by
  constructor
  · have hrun : (nodeRun idealEnv sampleNode halfKnown >>= fun s =>
        .ok (shardAllHashes (s.shardOf 1 0), (entryAt idealCrypto s 1 0 0).isSome,
          ((s.shardOf 1 0).proof.bind (· 0)).isSome)) = .ok (false, true, true) := by
      decide +kernel
    obtain ⟨s, hs, hchecks⟩ := of_bind_eq_ok hrun
    injection hchecks with hchecks
    simp only [Prod.mk.injEq] at hchecks
    obtain ⟨hhalf, hentry, hstored⟩ := hchecks
    obtain ⟨e, he⟩ := Option.isSome_iff_exists.mp hentry
    have hreach : NodeReach idealEnv s := nodeReach_sampleNode.run hs
    obtain ⟨proof, hproof, hall⟩ := known_entries_provable hreach he
    obtain ⟨-, hgood, -⟩ := hall idealCrypto_injective (s.blk 1) ⟨rfl, rfl, rfl⟩
    exact ⟨s, e, proof, hreach, hhalf, he, hproof, hgood hstored⟩
  · have hrun : (nodeRun idealEnv sampleNode sampleRivalry >>= fun s =>
        .ok ((s.shardOf 1 0).proof.isNone, (entryAt idealCrypto s 1 0 1).isSome,
          decide ((merkleTxs idealCrypto (s.shardOf 1 0)).toOption = (s.blk 1).merkles[0]?),
          (s.blk 1).merkles[0]?.isSome)) = .ok (true, true, true, true) := by
      decide +kernel
    obtain ⟨s, hs, hchecks⟩ := of_bind_eq_ok hrun
    injection hchecks with hchecks
    simp only [Prod.mk.injEq, decide_eq_true_eq] at hchecks
    obtain ⟨hnone, hentry, hmerkle, hsome⟩ := hchecks
    obtain ⟨e, he⟩ := Option.isSome_iff_exists.mp hentry
    obtain ⟨m, hm⟩ := Option.isSome_iff_exists.mp hsome
    have hreach : NodeReach idealEnv s := nodeReach_sampleNode.run hs
    have hstored : (s.shardOf 1 0).proof.bind (· 1) = none := by
      rw [Option.isNone_iff_eq_none.mp hnone]
      rfl
    obtain ⟨proof, hproof, hall⟩ := known_entries_provable hreach he
    obtain ⟨-, -, hbuilt⟩ := hall idealCrypto_injective (s.blk 1) ⟨rfl, rfl, rfl⟩
    refine ⟨s, e, proof, hreach, hnone, he, hproof,
      (hbuilt hstored ⟨m, eq_ok_of_toOption (hmerkle.trans hm), hm⟩ idealCrypto_ne_zero).mpr ?_⟩
    exact startsAgree_of_lt_two (by decide)

end Pettycoin
