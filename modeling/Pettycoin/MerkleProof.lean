import Pettycoin.IdealHash
import Pettycoin.Lib.Merkle

/-!
# Pettycoin — what a merkle proof proves

`merkle_recurse` is the root of a tree of 256 leaves, zero beyond the shard's
size, and `proof_merkles_to` climbs such a tree from one leaf. So the results
about trees apply:

* `checkProofByhash_pins` — an accepted proof pins the entry at its offset, when
  the block commits to a list of entries and the double hash is injective.
* `merkleTxs_eq_merkleHashes` — a shard with any mixture of transactions and
  hashes has the root of the corresponding list.
* `createProof_accepted_of_starts`, `createProof_accepted_iff_starts` — which
  proofs of `create_proof` are accepted: those of the offsets where the
  subtrees it hashes have the contents of the sibling subtrees.
-/

namespace Pettycoin

open ExceptRules MerkleTree

variable {D : Type} [Digest D]

-- ---------------------------------------------------------------------------
-- Trees over entries
-- ---------------------------------------------------------------------------

/-- The leaf over one entry; a missing entry is a zero leaf. -/
def paddedLeaf (C : Crypto D) (entry : Nat → Option (TxRefHash D)) (n : Nat) : D :=
  match entry n with
  | some h => merkleTwoHashes C h.txhash h.refhash
  | none => Digest.zero

/-- The root over 256 entries. -/
def entriesRoot (C : Crypto D) (entry : Nat → Option (TxRefHash D)) : D :=
  root (merkleTwoHashes C) (paddedLeaf C entry) 8 0

/-- The entries of a shard: nothing beyond its size. -/
def shardEntry (C : Crypto D) (shard : BlockShard D) (n : Nat) : Option (TxRefHash D) :=
  if n < shard.size then txrefhashInShard C shard n else none

/-- Every entry of the shard is known, as a transaction or as a hash. -/
def ShardFilled (shard : BlockShard D) : Prop :=
  ∀ n < shard.size, shard.u n ≠ .unknown

theorem txrefhashInShard_eq_none {C : Crypto D} {shard : BlockShard D} {n : Nat} :
    txrefhashInShard C shard n = none ↔ shard.u n = .unknown := by
  unfold txrefhashInShard
  split <;> simp_all

/-- A recursion whose leaf calls return is the root over what they return. -/
theorem merkleRecurse_eq_root {C : Crypto D} {fn : Nat → Res D} {maxOff : Nat}
    {leaf : Nat → D} (hfn : ∀ n < maxOff, fn n = .ok (leaf n))
    (hpad : ∀ n, maxOff ≤ n → leaf n = Digest.zero) (k off : Nat) :
    merkleRecurse C fn maxOff k off = .ok (root (merkleTwoHashes C) leaf k off) := by
  induction k generalizing off with
  | zero =>
    rw [merkleRecurse, root_zero]
    by_cases hoff : maxOff ≤ off
    · rw [if_pos hoff, hpad off hoff]
    · rw [if_neg hoff, hfn off (by omega)]
  | succ k ih =>
    rw [merkleRecurse, ih off, ok_bind, ih (off + 2 ^ k), ok_bind, root_succ]

/-- The hash of any aligned part of a filled shard. -/
theorem merkleSomeTxs_eq_root {C : Crypto D} {shard : BlockShard D}
    (hfilled : ShardFilled shard) (off k : Nat) :
    merkleSomeTxs C shard off k
      = .ok (root (merkleTwoHashes C) (paddedLeaf C (shardEntry C shard)) k off) := by
  apply merkleRecurse_eq_root
  · intro n hn
    have hknown : txrefhashInShard C shard n ≠ none :=
      fun h => hfilled n hn (txrefhashInShard_eq_none.mp h)
    obtain ⟨h, hh⟩ := Option.ne_none_iff_exists'.mp hknown
    rw [merkleTx, hh, paddedLeaf, shardEntry, if_pos hn, hh]
  · intro n hn
    rw [paddedLeaf, shardEntry, if_neg (by omega)]

/-- The merkle root of a filled shard. -/
theorem merkleTxs_eq_entriesRoot {C : Crypto D} {shard : BlockShard D}
    (hfilled : ShardFilled shard) :
    merkleTxs C shard = .ok (entriesRoot C (shardEntry C shard)) :=
  merkleSomeTxs_eq_root hfilled 0 8

/-- The merkle root of a list of entries. -/
theorem merkleHashes_eq_entriesRoot (C : Crypto D) (hashes : List (TxRefHash D)) :
    merkleHashes C hashes 0 hashes.length = .ok (entriesRoot C fun n => hashes[n]?) := by
  apply merkleRecurse_eq_root
  · intro n hn
    rw [merkleHash, paddedLeaf, List.getElem?_eq_getElem hn]
  · intro n hn
    rw [paddedLeaf, List.getElem?_eq_none hn]

/-- A shard and a list agree when every entry of the shard is the list's. -/
theorem shardEntry_eq_getElem? {C : Crypto D} {shard : BlockShard D}
    {hashes : List (TxRefHash D)} (hsize : hashes.length = shard.size)
    (h : ∀ n < shard.size, txrefhashInShard C shard n = hashes[n]?) :
    shardEntry C shard = fun n => hashes[n]? := by
  funext n
  rw [shardEntry]
  by_cases hn : n < shard.size
  · rw [if_pos hn, h n hn]
  · rw [if_neg hn, List.getElem?_eq_none (by omega)]

/-- **`merkle_txs` is `merkle_hashes`**: whichever of the entries are known as
transactions and whichever as hashes. -/
theorem merkleTxs_eq_merkleHashes {C : Crypto D} {shard : BlockShard D}
    {hashes : List (TxRefHash D)} (hsize : hashes.length = shard.size)
    (h : ∀ n < shard.size, txrefhashInShard C shard n = hashes[n]?) :
    merkleTxs C shard = merkleHashes C hashes 0 hashes.length := by
  have hfilled : ShardFilled shard := by
    intro n hn hunknown
    have hlt : n < hashes.length := by omega
    rw [← txrefhashInShard_eq_none (C := C), h n hn, List.getElem?_eq_getElem hlt] at hunknown
    exact absurd hunknown (Option.some_ne_none _)
  rw [merkleTxs_eq_entriesRoot hfilled, merkleHashes_eq_entriesRoot,
    shardEntry_eq_getElem? hsize h]

-- ---------------------------------------------------------------------------
-- The path of a proof
-- ---------------------------------------------------------------------------

/-- The proof's sibling at a level of the tree. -/
def proofSibling (proof : Proof D) (i : Nat) : D :=
  if h : i < 8 then proof.merkle ⟨i, h⟩ else Digest.zero

/-- `proof_merkles_to` climbs from the entry's leaf. -/
theorem proofMerklesTo_eq_climb (C : Crypto D) (h : TxRefHash D) (proof : Proof D) :
    proofMerklesTo C h proof
      = climb (merkleTwoHashes C) proof.pos.txoff.toNat (proofSibling proof)
          (merkleTwoHashes C h.txhash h.refhash) 8 := by
  have hfin : List.finRange 8 = [0, 1, 2, 3, 4, 5, 6, 7] := by decide
  rw [proofMerklesTo, hfin]
  rfl

/-- An 8-bit offset lies in the tree that starts at 0. -/
theorem subtreeStart_eight {pos : Nat} (h : pos < 256) : subtreeStart pos 8 = 0 := by
  rw [subtreeStart, Nat.div_eq_of_lt (by omega), Nat.zero_mul]

theorem merkleTwoHashes_inj {C : Crypto D} (hC : Function.Injective C.doubleSha) (a b c d : D)
    (h : merkleTwoHashes C a b = merkleTwoHashes C c d) : a = c ∧ b = d := by
  obtain ⟨hac, hbd⟩ := Digest.bytes_append_inj (hC h)
  have hbd' : Digest.bytes b ++ [] = Digest.bytes d ++ [] := by simpa using hbd
  exact ⟨hac, (Digest.bytes_append_inj hbd').1⟩

theorem paddedLeaf_some (C : Crypto D) {entry : Nat → Option (TxRefHash D)} {n : Nat}
    {h : TxRefHash D} (hn : entry n = some h) :
    paddedLeaf C entry n = merkleTwoHashes C h.txhash h.refhash := by
  rw [paddedLeaf, hn]

/-- A path from an entry's own leaf that takes the true siblings arrives at the
root of the entries. -/
theorem proofMerklesTo_eq_entriesRoot {C : Crypto D} {entry : Nat → Option (TxRefHash D)}
    {proof : Proof D} {h : TxRefHash D} (hentry : entry proof.pos.txoff.toNat = some h)
    (hsib : ∀ i : Fin 8, proof.merkle i
      = root (merkleTwoHashes C) (paddedLeaf C entry) i
          (siblingStart proof.pos.txoff.toNat i)) :
    proofMerklesTo C h proof = entriesRoot C entry := by
  have hpos := proof.pos.txoff.toNat_lt
  rw [proofMerklesTo_eq_climb, ← paddedLeaf_some C hentry, climb_root, subtreeStart_eight hpos,
    entriesRoot]
  intro i hi
  rw [proofSibling, dif_pos hi]
  exact hsib ⟨i, hi⟩

/-- Under an injective hash, a path arrives at the root of the entries exactly
when it starts at the entry of its offset and takes the true siblings. -/
theorem proofMerklesTo_eq_entriesRoot_iff {C : Crypto D} (hC : Function.Injective C.doubleSha)
    {entry : Nat → Option (TxRefHash D)} {proof : Proof D} {h : TxRefHash D} :
    proofMerklesTo C h proof = entriesRoot C entry ↔
      merkleTwoHashes C h.txhash h.refhash = paddedLeaf C entry proof.pos.txoff.toNat ∧
      ∀ i : Fin 8, proof.merkle i
        = root (merkleTwoHashes C) (paddedLeaf C entry) i
            (siblingStart proof.pos.txoff.toNat i) := by
  have hpos := proof.pos.txoff.toNat_lt
  have hiff := climb_eq_root_iff (merkleTwoHashes_inj hC) (paddedLeaf C entry)
    (proofSibling proof) proof.pos.txoff.toNat
    (x := merkleTwoHashes C h.txhash h.refhash) (k := 8)
  rw [subtreeStart_eight hpos, ← proofMerklesTo_eq_climb] at hiff
  refine hiff.trans (and_congr_right fun _ => ?_)
  constructor
  · intro hsib i
    have := hsib i.val i.isLt
    rwa [proofSibling, dif_pos i.isLt] at this
  · intro hsib i hi
    rw [proofSibling, dif_pos hi]
    exact hsib ⟨i, hi⟩

theorem txRefHash_ext_of_merkleTwoHashes {C : Crypto D} (hC : Function.Injective C.doubleSha)
    {h h' : TxRefHash D}
    (heq : merkleTwoHashes C h.txhash h.refhash = merkleTwoHashes C h'.txhash h'.refhash) :
    h = h' := by
  obtain ⟨htx, href⟩ := merkleTwoHashes_inj hC _ _ _ _ heq
  cases h
  cases h'
  simp_all

/-- Leaves are equal exactly when the entries are, if no hash is zero. -/
theorem paddedLeaf_inj {C : Crypto D} (hC : Function.Injective C.doubleSha)
    (hzero : ∀ m, C.doubleSha m ≠ Digest.zero) {entry entry' : Nat → Option (TxRefHash D)}
    {n n' : Nat} (h : paddedLeaf C entry n = paddedLeaf C entry' n') : entry n = entry' n' := by
  unfold paddedLeaf at h
  cases hn : entry n with
  | none =>
    cases hn' : entry' n' with
    | none => rfl
    | some h' =>
      rw [hn, hn'] at h
      exact absurd h.symm (hzero _)
  | some h₁ =>
    cases hn' : entry' n' with
    | none =>
      rw [hn, hn'] at h
      exact absurd h (hzero _)
    | some h₂ =>
      rw [hn, hn'] at h
      rw [txRefHash_ext_of_merkleTwoHashes hC h]

/-- What `check_proof_byhash` accepts. -/
theorem checkProofByhash_eq_true [DecidableEq D] {C : Crypto D} {proof : Proof D} {b : Block D}
    {h : TxRefHash D} :
    checkProofByhash C proof b h = true ↔
      proof.pos.shard.toNat < b.numShards ∧
      proof.pos.txoff.toNat < b.shardSize proof.pos.shard.toNat ∧
      b.merkles[proof.pos.shard.toNat]? = some (proofMerklesTo C h proof) := by
  unfold checkProofByhash
  simp only []
  split_ifs with hshard hoff
  · simp only [false_iff]
    omega
  · simp only [false_iff]
    omega
  · rw [beq_iff_eq]
    exact ⟨fun h => ⟨by omega, by omega, h⟩, fun h => h.2.2⟩

/-- **Soundness and position binding.** When the block commits to a list of
entries for the shard, an accepted proof is for the entry at its offset. -/
theorem checkProofByhash_pins [DecidableEq D] {C : Crypto D}
    (hC : Function.Injective C.doubleSha) {proof : Proof D} {b : Block D} {h : TxRefHash D}
    {hashes : List (TxRefHash D)}
    (hlen : hashes.length = b.shardSize proof.pos.shard.toNat)
    (hroot : ∀ m, b.merkles[proof.pos.shard.toNat]? = some m →
      merkleHashes C hashes 0 hashes.length = .ok m)
    (hcheck : checkProofByhash C proof b h = true) :
    hashes[proof.pos.txoff.toNat]? = some h := by
  obtain ⟨-, hoff, hmerkle⟩ := checkProofByhash_eq_true.mp hcheck
  have hcommit := hroot _ hmerkle
  rw [merkleHashes_eq_entriesRoot] at hcommit
  injection hcommit with hcommit
  obtain ⟨hleaf, -⟩ := (proofMerklesTo_eq_entriesRoot_iff hC).mp hcommit.symm
  have hlt : proof.pos.txoff.toNat < hashes.length := by omega
  rw [paddedLeaf_some C (List.getElem?_eq_getElem hlt)] at hleaf
  rw [List.getElem?_eq_getElem hlt, txRefHash_ext_of_merkleTwoHashes hC hleaf]

/-- Two proofs for one position of one block are for the same entry. -/
theorem checkProofByhash_same_pos [DecidableEq D] {C : Crypto D}
    (hC : Function.Injective C.doubleSha) {proof proof' : Proof D} {b : Block D}
    {h h' : TxRefHash D} (hshard : proof.pos.shard = proof'.pos.shard)
    (htxoff : proof.pos.txoff = proof'.pos.txoff)
    (hcheck : checkProofByhash C proof b h = true)
    (hcheck' : checkProofByhash C proof' b h' = true) : h = h' := by
  obtain ⟨-, -, hmerkle⟩ := checkProofByhash_eq_true.mp hcheck
  obtain ⟨-, -, hmerkle'⟩ := checkProofByhash_eq_true.mp hcheck'
  rw [← hshard, hmerkle] at hmerkle'
  injection hmerkle' with heq
  rw [proofMerklesTo_eq_climb, proofMerklesTo_eq_climb, ← htxoff] at heq
  exact txRefHash_ext_of_merkleTwoHashes hC
    (climb_injective (merkleTwoHashes_inj hC) proof.pos.txoff.toNat heq)

-- ---------------------------------------------------------------------------
-- The proofs `create_proof` builds
-- ---------------------------------------------------------------------------

/-- What `create_proof` returns for a filled shard without a stored proof. -/
def builtProof (C : Crypto D) (s : State D) (b : BlockId) (shardnum txoff : Nat) : Proof D :=
  { pos := { block := (s.blk b).sha, shard := UInt16.ofNat shardnum
             txoff := UInt8.ofNat txoff, unused := 0 }
    merkle := fun i => root (merkleTwoHashes C)
      (paddedLeaf C (shardEntry C (s.shardOf b shardnum))) i (proofStart txoff i) }

theorem createProof_eq_builtProof {C : Crypto D} {s : State D} {b : BlockId}
    {shardnum txoff : Nat} (hcanned : (s.shardOf b shardnum).proof.bind (· txoff) = none)
    (hall : shardAllHashes (s.shardOf b shardnum) = true)
    (hfilled : ShardFilled (s.shardOf b shardnum)) :
    createProof C s b shardnum txoff = .ok (builtProof C s b shardnum txoff) := by
  have hmerkle : ofFn (fun i : Fin 8 =>
      merkleSomeTxs C (s.shardOf b shardnum) (proofStart txoff i) i)
        = .ok (builtProof C s b shardnum txoff).merkle :=
    ofFn_eq_ok.mpr fun i => merkleSomeTxs_eq_root hfilled _ _
  rw [createProof]
  simp only [hcanned, hall, assert, if_pos, ok_bind, hmerkle]
  rfl

/-- The subtrees `create_proof` hashes have the contents of the sibling subtrees. -/
def StartsAgree (C : Crypto D) (shard : BlockShard D) (txoff : Nat) : Prop :=
  ∀ i < 8, ∀ j < 2 ^ i,
    shardEntry C shard (proofStart txoff i + j) = shardEntry C shard (siblingStart txoff i + j)

/-- At offsets 0 and 1 `create_proof` starts where the siblings do. -/
theorem startsAgree_of_lt_two {C : Crypto D} {shard : BlockShard D} {txoff : Nat}
    (h : txoff < 2) : StartsAgree C shard txoff := by
  intro i _ j _
  have hstart : proofStart txoff i = siblingStart txoff i := by
    rw [proofStart, siblingStart]
    rcases Nat.eq_zero_or_pos i with rfl | hi
    · have : txoff = 0 ∨ txoff = 1 := by omega
      rcases this with rfl | rfl <;> rfl
    · have hlt : txoff < 2 ^ i := lt_of_lt_of_le h (Nat.le_self_pow hi.ne' 2)
      have hbit : txoff.testBit i = false := Nat.testBit_lt_two_pow hlt
      rw [hbit, Nat.div_eq_of_lt hlt]
      simp
  rw [hstart]

/-- The node accepts, for the entry at `txoff`, the proof it built. -/
def ProofAccepted [DecidableEq D] (C : Crypto D) (s : State D) (b : BlockId)
    (shardnum txoff : Nat) : Prop :=
  ∃ proof, createProof C s b shardnum txoff = .ok proof ∧
    (∀ tx refs, (s.shardOf b shardnum).u txoff = .tx tx refs →
      checkProof C proof (s.blk b) tx refs = true) ∧
    (∀ h, txrefhashInShard C (s.shardOf b shardnum) txoff = some h →
      checkProofByhash C proof (s.blk b) h = true)

/-- A shard whose entries are all known, with the root its block commits to. -/
structure ShardCommitted (C : Crypto D) (s : State D) (b : BlockId) (shardnum : Nat) : Prop where
  shardnum_lt : shardnum < (s.blk b).numShards
  shardnum_u16 : shardnum < 2 ^ 16
  size_eq : (s.shardOf b shardnum).size = (s.blk b).shardSize shardnum
  filled : ShardFilled (s.shardOf b shardnum)
  allHashes : shardAllHashes (s.shardOf b shardnum) = true
  root_eq : ∃ m, merkleTxs C (s.shardOf b shardnum) = .ok m ∧ (s.blk b).merkles[shardnum]? = some m

variable [DecidableEq D] {C : Crypto D} {s : State D} {b : BlockId} {shardnum txoff : Nat}

/-- The node accepts the proof it built exactly when the proof arrives at the
root of the shard's entries. -/
theorem proofAccepted_iff_climbs (hc : ShardCommitted C s b shardnum)
    (hcanned : (s.shardOf b shardnum).proof.bind (· txoff) = none)
    (hoff : txoff < (s.shardOf b shardnum).size) :
    ProofAccepted C s b shardnum txoff ↔
      ∀ h, shardEntry C (s.shardOf b shardnum) txoff = some h →
        proofMerklesTo C h (builtProof C s b shardnum txoff)
          = entriesRoot C (shardEntry C (s.shardOf b shardnum)) := by
  obtain ⟨m, hm, hroot⟩ := hc.root_eq
  rw [merkleTxs_eq_entriesRoot hc.filled] at hm
  injection hm with hm
  have hsize := (s.blk b).shardSize_lt shardnum
  have hsz := hc.size_eq
  have hshard : (builtProof C s b shardnum txoff).pos.shard.toNat = shardnum :=
    UInt16.toNat_ofNat_of_lt' hc.shardnum_u16
  have htxoff : (builtProof C s b shardnum txoff).pos.txoff.toNat = txoff :=
    UInt8.toNat_ofNat_of_lt' (by simp [UInt8.size]; omega)
  have hbyhash : ∀ h, checkProofByhash C (builtProof C s b shardnum txoff) (s.blk b) h = true ↔
      proofMerklesTo C h (builtProof C s b shardnum txoff)
        = entriesRoot C (shardEntry C (s.shardOf b shardnum)) := by
    intro h
    rw [checkProofByhash_eq_true, hshard, htxoff, hroot, hm]
    constructor
    · rintro ⟨-, -, heq⟩
      exact (Option.some.inj heq).symm
    · intro heq
      exact ⟨hc.shardnum_lt, by omega, by rw [heq]⟩
  rw [ProofAccepted, createProof_eq_builtProof hcanned hc.allHashes hc.filled]
  rw [show shardEntry C (s.shardOf b shardnum) txoff
      = txrefhashInShard C (s.shardOf b shardnum) txoff by rw [shardEntry, if_pos hoff]]
  constructor
  · rintro ⟨proof, hproof, -, hcheck⟩ h hh
    injection hproof with hproof
    subst hproof
    exact (hbyhash h).mp (hcheck h hh)
  · intro hclimbs
    refine ⟨_, rfl, ?_, fun h hh => (hbyhash h).mpr (hclimbs h hh)⟩
    intro tx refs hslot
    exact (hbyhash _).mpr (hclimbs _ (by rw [txrefhashInShard, hslot]))

/-- A proof is accepted when the subtrees agree, whatever the hash. -/
theorem proofAccepted_of_startsAgree (hc : ShardCommitted C s b shardnum)
    (hcanned : (s.shardOf b shardnum).proof.bind (· txoff) = none)
    (hoff : txoff < (s.shardOf b shardnum).size)
    (hstarts : StartsAgree C (s.shardOf b shardnum) txoff) :
    ProofAccepted C s b shardnum txoff := by
  have hsize := (s.blk b).shardSize_lt shardnum
  have hsz := hc.size_eq
  have htxoff : (builtProof C s b shardnum txoff).pos.txoff.toNat = txoff :=
    UInt8.toNat_ofNat_of_lt' (by simp [UInt8.size]; omega)
  refine (proofAccepted_iff_climbs hc hcanned hoff).mpr fun h hh => ?_
  apply proofMerklesTo_eq_entriesRoot
  · rw [htxoff, hh]
  · intro i
    rw [htxoff]
    exact root_congr _ fun j hj => by
      rw [paddedLeaf, paddedLeaf, hstarts i i.isLt j hj]

/-- Under an injective hash that is never zero, only then. -/
theorem startsAgree_of_proofAccepted (hC : Function.Injective C.doubleSha)
    (hzero : ∀ m, C.doubleSha m ≠ Digest.zero) (hc : ShardCommitted C s b shardnum)
    (hcanned : (s.shardOf b shardnum).proof.bind (· txoff) = none)
    (hoff : txoff < (s.shardOf b shardnum).size) (hacc : ProofAccepted C s b shardnum txoff) :
    StartsAgree C (s.shardOf b shardnum) txoff := by
  have hsize := (s.blk b).shardSize_lt shardnum
  have hsz := hc.size_eq
  have htxoff : (builtProof C s b shardnum txoff).pos.txoff.toNat = txoff :=
    UInt8.toNat_ofNat_of_lt' (by simp [UInt8.size]; omega)
  have hknown : txrefhashInShard C (s.shardOf b shardnum) txoff ≠ none :=
    fun h => hc.filled txoff hoff (txrefhashInShard_eq_none.mp h)
  obtain ⟨h, hh⟩ := Option.ne_none_iff_exists'.mp hknown
  have hentry : shardEntry C (s.shardOf b shardnum) txoff = some h := by
    rw [shardEntry, if_pos hoff, hh]
  have hclimbs := (proofAccepted_iff_climbs hc hcanned hoff).mp hacc h hentry
  obtain ⟨-, hsib⟩ := (proofMerklesTo_eq_entriesRoot_iff hC).mp hclimbs
  rw [htxoff] at hsib
  intro i hi j hj
  have hleaf := (root_eq_iff _ (merkleTwoHashes_inj hC)).mp (hsib ⟨i, hi⟩) j hj
  exact paddedLeaf_inj hC hzero hleaf

/-- A shard of three entries, all known as hashes. -/
def threeHashes : BlockShard IdealDigest :=
  { newBlockShard 0 3 with
    hashcount := 3
    u := fun n => .hash ⟨.hash [UInt8.ofNat n], .hash []⟩ }

/-- A node whose only block commits to that shard. -/
def threeHashesState : State IdealDigest :=
  let empty := genesisBlock .zero (entriesRoot idealCrypto (shardEntry idealCrypto threeHashes))
    (Bytes.zero 13) ⟨0, 0, 0⟩
  newState { empty with shardNums := [3, 0, 0, 0], shard := fun _ => threeHashes } 0

theorem threeHashes_filled : ShardFilled threeHashes := by
  intro n _ h
  simp [threeHashes] at h

theorem threeHashesState_committed : ShardCommitted idealCrypto threeHashesState 0 0 where
  shardnum_lt := by decide
  shardnum_u16 := by decide
  size_eq := rfl
  filled := threeHashes_filled
  allHashes := rfl
  root_eq := ⟨_, merkleTxs_eq_entriesRoot threeHashes_filled, rfl⟩

/-- At offset 2 `create_proof` hashes the entry at 1 instead of the padding at 3. -/
theorem threeHashes_not_startsAgree : ¬ StartsAgree idealCrypto threeHashes 2 := by
  intro h
  have h0 := h 0 (by omega) 0 (by omega)
  revert h0
  decide

/-- `check_proof` rejects the proof `create_proof` builds at offset 2 of a shard
of three. -/
theorem createProof_rejected :
    ShardCommitted idealCrypto threeHashesState 0 0 ∧
    (threeHashesState.shardOf 0 0).proof.bind (· 2) = none ∧
    2 < (threeHashesState.shardOf 0 0).size ∧
    ¬ ProofAccepted idealCrypto threeHashesState 0 0 2 :=
  ⟨threeHashesState_committed, rfl, by decide, fun hacc =>
    threeHashes_not_startsAgree (startsAgree_of_proofAccepted idealCrypto_injective
      idealCrypto_ne_zero threeHashesState_committed rfl (by decide) hacc)⟩

/-- **Which proofs are accepted.** The proof `create_proof` builds is accepted
when the subtrees it hashes have the contents of the sibling subtrees, and, for a
hash without collisions, only then. At offsets 0 and 1 they always do. -/
theorem createProof_accepted_iff (hc : ShardCommitted C s b shardnum)
    (hcanned : (s.shardOf b shardnum).proof.bind (· txoff) = none)
    (hoff : txoff < (s.shardOf b shardnum).size) :
    (StartsAgree C (s.shardOf b shardnum) txoff → ProofAccepted C s b shardnum txoff) ∧
    (Function.Injective C.doubleSha → (∀ m, C.doubleSha m ≠ Digest.zero) →
      (ProofAccepted C s b shardnum txoff ↔ StartsAgree C (s.shardOf b shardnum) txoff)) ∧
    (txoff < 2 → ProofAccepted C s b shardnum txoff) :=
  ⟨proofAccepted_of_startsAgree hc hcanned hoff,
    fun hC hzero => ⟨startsAgree_of_proofAccepted hC hzero hc hcanned hoff,
      proofAccepted_of_startsAgree hc hcanned hoff⟩,
    fun h => proofAccepted_of_startsAgree hc hcanned hoff (startsAgree_of_lt_two h)⟩

/-- In the shard of three hashes the proof at offset 1 is accepted. -/
theorem createProof_accepted_iff_three :
    ProofAccepted idealCrypto threeHashesState 0 0 1 ∧
    (ProofAccepted idealCrypto threeHashesState 0 0 2 ↔ StartsAgree idealCrypto threeHashes 2) :=
  ⟨(createProof_accepted_iff threeHashesState_committed rfl (by decide)).2.2 (by omega),
    (createProof_accepted_iff threeHashesState_committed rfl (by decide)).2.1
      idealCrypto_injective idealCrypto_ne_zero⟩

end Pettycoin
