import Pettycoin.Frame
import Pettycoin.HeadsRun
import Pettycoin.MerkleProof

/-!
# Pettycoin — what is known of the blocks

`Ledger` is what holds of the shards and of `txhash` at every moment: the counts
of a shard are right, everything in a slot came with a proof, `txhash` names
what is there, and every transaction passed `check_tx`. Between two packets a
place is also either in a shard of which all is known or has its proof stored
(`LedgerOk`), so that `create_proof` succeeds.

Only three things touch this: a new block (`Ledger.sewBlock`), a slot that is
filled (`Ledger.fillSlot`, `Ledger.setHash`) and the proofs stored. Everything
else is a `Frame`.

* `Ledger.sewBlock` — a new block;
* `Ledger.slotSet_unknown`, `Ledger.slotSet_hash` — a slot that is filled;
* `Ledger.frame` — everything else;
* `LedgerOk.createProof_ok` — between two packets a proof can be made.
-/

namespace Pettycoin

open ExceptRules

variable {D : Type} [Digest D] [DecidableEq D] {E : Env D} {s s₀ s' : State D}
  {b shardnum txoff : Nat}

-- ---------------------------------------------------------------------------
-- Counting slots
-- ---------------------------------------------------------------------------

/-- The slot holds a transaction. -/
def Slot.isTx : Slot D → Bool
  | .tx _ _ => true
  | _ => false

/-- The slot holds a hash. -/
def Slot.isHash : Slot D → Bool
  | .hash _ => true
  | _ => false

/-- How many of the first `n` slots are of a kind. -/
def countSlots (u : Nat → Slot D) (kind : Slot D → Bool) (n : Nat) : Nat :=
  (List.range n).countP fun i => kind (u i)

omit [Digest D] [DecidableEq D] in
theorem countSlots_succ (u : Nat → Slot D) (kind : Slot D → Bool) (n : Nat) :
    countSlots u kind (n + 1) = countSlots u kind n + if kind (u n) then 1 else 0 := by
  unfold countSlots
  rw [List.range_succ, List.countP_append, List.countP_singleton]

omit [Digest D] [DecidableEq D] in
/-- Changing one slot changes the count by that slot. -/
theorem countSlots_update (u : Nat → Slot D) (kind : Slot D → Bool) (x : Slot D) {i n : Nat}
    (hi : i < n) :
    countSlots (Function.update u i x) kind n + (if kind (u i) then 1 else 0)
      = countSlots u kind n + if kind x then 1 else 0 := by
  have hbelow : ∀ m ≤ i, countSlots (Function.update u i x) kind m = countSlots u kind m := by
    intro m hm
    unfold countSlots
    refine List.countP_congr fun j hj => ?_
    have hji : j ≠ i := by
      have := List.mem_range.mp hj
      omega
    rw [Function.update_of_ne hji]
  induction n with
  | zero => omega
  | succ n ih =>
    rw [countSlots_succ, countSlots_succ]
    by_cases hin : i = n
    · subst hin
      rw [hbelow i (Nat.le_refl i), Function.update_self]
      omega
    · have := ih (by omega)
      rw [Function.update_of_ne (Ne.symm hin)]
      omega

omit [Digest D] [DecidableEq D] in
/-- As many slots are known as there are slots: all of them. -/
theorem known_of_countSlots {u : Nat → Slot D} {n : Nat}
    (h : countSlots u Slot.isTx n + countSlots u Slot.isHash n = n) : ∀ i < n, u i ≠ .unknown := by
  have hle : ∀ m, countSlots u Slot.isTx m + countSlots u Slot.isHash m ≤ m := by
    intro m
    induction m with
    | zero => exact Nat.le_refl 0
    | succ m ih =>
      rw [countSlots_succ, countSlots_succ]
      cases u m <;> simp only [Slot.isTx, Slot.isHash] <;> simp <;> omega
  induction n with
  | zero => exact fun i hi => absurd hi (Nat.not_lt_zero i)
  | succ n ih =>
    rw [countSlots_succ, countSlots_succ] at h
    have := hle n
    intro i hi hu
    by_cases hin : i = n
    · subst hin
      rw [hu] at h
      simp [Slot.isTx, Slot.isHash] at h
      omega
    · refine ih ?_ i (by omega) hu
      cases hn : u n <;> rw [hn] at h <;> simp [Slot.isTx, Slot.isHash] at h <;> omega

omit [Digest D] [DecidableEq D] in
theorem countSlots_of_known {u : Nat → Slot D} {n : Nat} (h : ∀ i < n, u i ≠ .unknown) :
    countSlots u Slot.isTx n + countSlots u Slot.isHash n = n := by
  induction n with
  | zero => rfl
  | succ n ih =>
    rw [countSlots_succ, countSlots_succ]
    have := ih fun i hi => h i (by omega)
    have hn := h n (by omega)
    cases hu : u n with
    | unknown => exact absurd hu hn
    | tx tx refs => simp [Slot.isTx, Slot.isHash]; omega
    | hash hash => simp [Slot.isTx, Slot.isHash]; omega

-- ---------------------------------------------------------------------------
-- The invariant
-- ---------------------------------------------------------------------------

/-- `proof` is accepted for this entry at this place of the block. -/
structure Proves (C : Crypto D) (blk : Block D) (shardnum txoff : Nat) (h : TxRefHash D)
    (proof : Proof D) : Prop where
  shard : proof.pos.shard.toNat = shardnum
  txoff : proof.pos.txoff.toNat = txoff
  accepted : checkProofByhash C proof blk h = true

/-- Some proof is. -/
def Proven (C : Crypto D) (blk : Block D) (shardnum txoff : Nat) (h : TxRefHash D) : Prop :=
  ∃ proof, Proves C blk shardnum txoff h proof

/-- The entry known at a place. -/
def entryAt (C : Crypto D) (s : State D) (b shardnum txoff : Nat) : Option (TxRefHash D) :=
  txrefhashInShard C (s.shardOf b shardnum) txoff

/-- What holds of the shards and of `txhash` at every moment. -/
structure Ledger (E : Env D) (s : State D) : Prop where
  size : ∀ b shardnum : Nat, (s.shardOf b shardnum).size = (s.blk b).shardSize shardnum
  txcount : ∀ b shardnum : Nat, (s.shardOf b shardnum).txcount
    = countSlots (s.shardOf b shardnum).u Slot.isTx (s.shardOf b shardnum).size
  hashcount : ∀ b shardnum : Nat, (s.shardOf b shardnum).hashcount
    = countSlots (s.shardOf b shardnum).u Slot.isHash (s.shardOf b shardnum).size
  proven : ∀ (b shardnum txoff : Nat) (h : TxRefHash D),
    entryAt E.crypto s b shardnum txoff = some h → Proven E.crypto (s.blk b) shardnum txoff h
  inBlock : ∀ te ∈ s.txhash, ∀ b shardnum txoff : Nat, te.loc = .inBlock b shardnum txoff →
    b < s.numBlocks ∧ ∃ h, entryAt E.crypto s b shardnum txoff = some h ∧ h.txhash = te.sha
  pending : ∀ te ∈ s.txhash, ∀ tx, te.loc = .pending tx → te.sha = hashTx E.crypto tx
  txOk : ∀ tx, Held s tx → TxOk E.crypto tx
  shardOrder : ∀ b : Nat, (s.blk b).hdr.shardOrder = protocolInitialShardOrder

/-- Every place known can be proven: the whole shard is, or its proof is stored. -/
def ProofsKept (C : Crypto D) (s : State D) : Prop :=
  ∀ (b shardnum txoff : Nat) (h : TxRefHash D), entryAt C s b shardnum txoff = some h →
    shardAllHashes (s.shardOf b shardnum) = true ∨
      ((s.shardOf b shardnum).proof.bind (· txoff)).isSome

/-- What holds between two packets. -/
structure LedgerOk (E : Env D) (s : State D) : Prop extends Ledger E s where
  proofs : ProofsKept E.crypto s

-- ---------------------------------------------------------------------------
-- Consequences
-- ---------------------------------------------------------------------------

omit [DecidableEq D] in
theorem entryAt_eq_none {C : Crypto D} :
    entryAt C s b shardnum txoff = none ↔ (s.shardOf b shardnum).u txoff = .unknown :=
  txrefhashInShard_eq_none

omit [DecidableEq D] in
theorem entryAt_tx {C : Crypto D} {tx : Tx D} {refs : List InputRef}
    (h : (s.shardOf b shardnum).u txoff = .tx tx refs) :
    entryAt C s b shardnum txoff = some (hashTxAndRefs C tx refs) := by
  unfold entryAt txrefhashInShard
  rw [h]

omit [DecidableEq D] in
theorem entryAt_hash {C : Crypto D} {h : TxRefHash D}
    (hu : (s.shardOf b shardnum).u txoff = .hash h) :
    entryAt C s b shardnum txoff = some h := by
  unfold entryAt txrefhashInShard
  rw [hu]

/-- What is known lies in the block. -/
theorem Ledger.in_range (hl : Ledger E s) {h : TxRefHash D}
    (hentry : entryAt E.crypto s b shardnum txoff = some h) :
    shardnum < (s.blk b).numShards ∧ txoff < (s.shardOf b shardnum).size := by
  obtain ⟨proof, hproof⟩ := hl.proven b shardnum txoff h hentry
  obtain ⟨hshard, hoff, -⟩ := checkProofByhash_eq_true.mp hproof.accepted
  rw [hproof.shard] at hshard hoff
  rw [hproof.txoff] at hoff
  exact ⟨hshard, by rw [hl.size]; exact hoff⟩

/-- A shard of which everything is known. -/
theorem Ledger.filled (hl : Ledger E s) (hall : shardAllHashes (s.shardOf b shardnum) = true) :
    ShardFilled (s.shardOf b shardnum) := by
  unfold shardAllHashes at hall
  rw [beq_iff_eq, hl.txcount, hl.hashcount] at hall
  exact known_of_countSlots hall

theorem Ledger.allHashes_of_filled (hl : Ledger E s)
    (hfilled : ShardFilled (s.shardOf b shardnum)) :
    shardAllHashes (s.shardOf b shardnum) = true := by
  unfold shardAllHashes
  rw [beq_iff_eq, hl.txcount, hl.hashcount]
  exact countSlots_of_known hfilled

/-- `create_proof` succeeds at every place known. -/
theorem LedgerOk.createProof_ok (hl : LedgerOk E s) {h : TxRefHash D}
    (hentry : entryAt E.crypto s b shardnum txoff = some h) :
    ∃ proof, createProof E.crypto s b shardnum txoff = .ok proof := by
  rcases hstored : (s.shardOf b shardnum).proof.bind (· txoff) with _ | proof
  · rcases hl.proofs b shardnum txoff h hentry with hall | hsome
    · exact ⟨_, createProof_eq_builtProof hstored hall (hl.filled hall)⟩
    · rw [hstored] at hsome
      exact absurd hsome (by simp)
  · refine ⟨proof, ?_⟩
    unfold createProof
    simp only [hstored]

omit [Digest D] in
/-- Blocks are found by their hash. -/
theorem blockFindAny_spec {sha : D} (h : blockFindAny s sha = some b) :
    b < s.numBlocks ∧ (s.blk b).sha = sha := by
  unfold blockFindAny at h
  have hmem := List.mem_of_find?_eq_some h
  obtain ⟨depth, -, hin⟩ := List.mem_flatMap.mp hmem
  have hlt := List.mem_range.mp (List.mem_of_mem_filter hin)
  have hsha := List.find?_some (p := fun b => (s.blk b).sha == sha) h
  exact ⟨hlt, beq_iff_eq.mp hsha⟩

-- ---------------------------------------------------------------------------
-- What leaves it alone
-- ---------------------------------------------------------------------------

theorem Ledger.fine (hl : Ledger E s) {tx : Tx D} (htx : Fine E s tx) : TxOk E.crypto tx := by
  rcases htx with hheld | hok
  · exact hl.txOk tx hheld
  · exact hok

omit [DecidableEq D] in
theorem Frame.entryAt_eq (hf : Frame E s₀ s) (C : Crypto D) (b shardnum txoff : Nat) :
    entryAt C s b shardnum txoff = entryAt C s₀ b shardnum txoff := by
  unfold entryAt
  rw [hf.shardOf_eq]

omit [DecidableEq D] in
/-- A proof is checked against the header. -/
theorem checkProofByhash_congr [DecidableEq D] {C : Crypto D} {blk blk' : Block D}
    (hhdr : blk'.hdr = blk.hdr) (hnums : blk'.shardNums = blk.shardNums)
    (hmerkles : blk'.merkles = blk.merkles) (proof : Proof D) (h : TxRefHash D) :
    checkProofByhash C proof blk' h = checkProofByhash C proof blk h := by
  unfold checkProofByhash Block.numShards Block.shardSize
  rw [hhdr, hnums, hmerkles]

omit [DecidableEq D] in
/-- A proof is checked against the header's shard order, the sizes and the roots. -/
theorem Proven.congr {C : Crypto D} {blk blk' : Block D} {h : TxRefHash D}
    [DecidableEq D] (hp : Proven C blk shardnum txoff h) (hhdr : blk'.hdr = blk.hdr)
    (hnums : blk'.shardNums = blk.shardNums) (hmerkles : blk'.merkles = blk.merkles) :
    Proven C blk' shardnum txoff h := by
  obtain ⟨proof, hshard, htxoff, hacc⟩ := hp
  exact ⟨proof, hshard, htxoff, (checkProofByhash_congr hhdr hnums hmerkles proof h).trans hacc⟩

theorem Ledger.frame (hl : Ledger E s₀) (hf : Frame E s₀ s) : Ledger E s where
  size b shardnum := by
    unfold Block.shardSize
    rw [hf.shardOf_eq, hf.shardNums_eq]
    exact hl.size b shardnum
  txcount b shardnum := by
    rw [hf.shardOf_eq]
    exact hl.txcount b shardnum
  hashcount b shardnum := by
    rw [hf.shardOf_eq]
    exact hl.hashcount b shardnum
  proven b shardnum txoff h hentry := by
    rw [hf.entryAt_eq] at hentry
    exact (hl.proven b shardnum txoff h hentry).congr (hf.hdr_eq b) (hf.shardNums_eq b)
      (hf.merkles_eq b)
  inBlock te hte b shardnum txoff hloc := by
    rw [hf.numBlocks, hf.entryAt_eq]
    rcases hf.txhash te hte with hold | ⟨tx, rfl⟩
    · exact hl.inBlock te hold b shardnum txoff hloc
    · exact absurd hloc (by simp)
  pending te hte tx hloc := by
    rcases hf.txhash te hte with hold | ⟨tx', rfl⟩
    · exact hl.pending te hold tx hloc
    · injection hloc with heq
      rw [heq]
  txOk tx htx := hl.fine (hf.fine_of_held htx)
  shardOrder b := by
    rw [hf.hdr_eq]
    exact hl.shardOrder b

theorem LedgerOk.frame (hl : LedgerOk E s₀) (hf : Frame E s₀ s) : LedgerOk E s where
  toLedger := hl.toLedger.frame hf
  proofs b shardnum txoff h hentry := by
    rw [hf.entryAt_eq] at hentry
    rw [hf.shardOf_eq]
    exact hl.proofs b shardnum txoff h hentry

-- ---------------------------------------------------------------------------
-- A new block
-- ---------------------------------------------------------------------------

variable {prev : Nat} {nb : NewBlock D}

omit [Digest D] [DecidableEq D] in
/-- What `block_add` leaves alone before it updates the heads. -/
theorem sewBlock_same (s : State D) (prev : Nat) (nb : NewBlock D) :
    (sewBlock s prev nb).numBlocks = s.numBlocks + 1 ∧
    (sewBlock s prev nb).txhash = s.txhash ∧ (sewBlock s prev nb).pending = s.pending ∧
    (sewBlock s prev nb).inputhash = s.inputhash := by
  unfold sewBlock
  dsimp only
  split_ifs <;> exact ⟨rfl, rfl, rfl, rfl⟩

omit [Digest D] [DecidableEq D] in
theorem blk_sewBlock_old (hprev : prev < s.numBlocks) {x : Nat} (hx : x ≠ s.numBlocks) :
    (sewBlock s prev nb).blk x = s.blk x := by
  obtain ⟨features, hblk⟩ := blk_sewBlock nb hprev
  rw [hblk, Function.update_of_ne hx]

/-- A new block comes with empty shards. -/
theorem Ledger.sewBlock (hl : Ledger E s) (hprev : prev < s.numBlocks)
    (horder : nb.hdr.shardOrder = protocolInitialShardOrder) :
    Ledger E (sewBlock s prev nb) := by
  obtain ⟨features, hblk⟩ := blk_sewBlock nb hprev
  obtain ⟨hnum, htxhash, hpending, -⟩ := sewBlock_same s prev nb
  have hnew : ∀ shardnum, (Pettycoin.sewBlock s prev nb).shardOf s.numBlocks shardnum
      = newBlockShard shardnum (nb.shardNums[shardnum]?.getD 0).toNat := by
    intro shardnum
    unfold State.shardOf
    rw [hblk, Function.update_self]
    rfl
  have hempty : ∀ shardnum txoff,
      entryAt E.crypto (Pettycoin.sewBlock s prev nb) s.numBlocks shardnum txoff = none := by
    intro shardnum txoff
    rw [entryAt_eq_none, hnew]
    rfl
  have hold : ∀ x, x ≠ s.numBlocks → (Pettycoin.sewBlock s prev nb).blk x = s.blk x :=
    fun x hx => blk_sewBlock_old hprev hx
  have hshard : ∀ x shardnum, x ≠ s.numBlocks →
      (Pettycoin.sewBlock s prev nb).shardOf x shardnum = s.shardOf x shardnum := by
    intro x shardnum hx
    unfold State.shardOf
    rw [hold x hx]
  have hcount : ∀ kind : Slot D → Bool, kind .unknown = false → ∀ shardnum,
      countSlots ((Pettycoin.sewBlock s prev nb).shardOf s.numBlocks shardnum).u kind
        ((Pettycoin.sewBlock s prev nb).shardOf s.numBlocks shardnum).size = 0 := by
    intro kind hkind shardnum
    unfold countSlots
    rw [hnew]
    exact List.countP_eq_zero.mpr fun i _ => by simp [newBlockShard, hkind]
  refine ⟨?_, ?_, ?_, ?_, ?_, ?_, ?_, ?_⟩
  · intro x shardnum
    by_cases hx : x = s.numBlocks
    · rw [hx, hnew, hblk, Function.update_self]
      rfl
    · rw [hshard x shardnum hx, hold x hx]
      exact hl.size x shardnum
  · intro x shardnum
    by_cases hx : x = s.numBlocks
    · rw [hx, hcount _ rfl, hnew]
      rfl
    · rw [hshard x shardnum hx]
      exact hl.txcount x shardnum
  · intro x shardnum
    by_cases hx : x = s.numBlocks
    · rw [hx, hcount _ rfl, hnew]
      rfl
    · rw [hshard x shardnum hx]
      exact hl.hashcount x shardnum
  · intro x shardnum txoff h hentry
    by_cases hx : x = s.numBlocks
    · rw [hx, hempty] at hentry
      exact absurd hentry (by simp)
    · unfold entryAt at hentry
      rw [hshard x shardnum hx] at hentry
      rw [hold x hx]
      exact hl.proven x shardnum txoff h hentry
  · intro te hte x shardnum txoff hloc
    rw [htxhash] at hte
    obtain ⟨hx, hentry⟩ := hl.inBlock te hte x shardnum txoff hloc
    unfold entryAt
    rw [hnum, hshard x shardnum (by omega)]
    exact ⟨by omega, hentry⟩
  · intro te hte
    rw [htxhash] at hte
    exact hl.pending te hte
  · intro tx htx
    refine hl.txOk tx ?_
    unfold Held InPending at htx ⊢
    rw [hpending, htxhash] at htx
    rcases htx with ⟨x, shardnum, txoff, refs, hslot⟩ | hpend
    · by_cases hx : x = s.numBlocks
      · rw [hx, hnew] at hslot
        exact absurd hslot (by simp [newBlockShard])
      · rw [hshard x shardnum hx] at hslot
        exact Or.inl ⟨x, shardnum, txoff, refs, hslot⟩
    · exact Or.inr hpend
  · intro x
    by_cases hx : x = s.numBlocks
    · rw [hx, hblk, Function.update_self]
      exact horder
    · rw [hold x hx]
      exact hl.shardOrder x

theorem LedgerOk.sewBlock (hl : LedgerOk E s) (hprev : prev < s.numBlocks)
    (horder : nb.hdr.shardOrder = protocolInitialShardOrder) :
    LedgerOk E (sewBlock s prev nb) where
  toLedger := hl.toLedger.sewBlock hprev horder
  proofs x shardnum txoff h hentry := by
    obtain ⟨features, hblk⟩ := blk_sewBlock nb hprev
    unfold entryAt State.shardOf at hentry
    unfold State.shardOf
    by_cases hx : x = s.numBlocks
    · rw [hx, hblk, Function.update_self] at hentry
      exact absurd hentry (by simp [newBlock, newBlockShard, txrefhashInShard])
    · rw [blk_sewBlock_old hprev hx] at hentry ⊢
      exact hl.proofs x shardnum txoff h hentry

-- ---------------------------------------------------------------------------
-- A slot is filled
-- ---------------------------------------------------------------------------

/-- The entry of a slot. -/
def Slot.entry (C : Crypto D) : Slot D → Option (TxRefHash D)
  | .tx t refs => some (hashTxAndRefs C t refs)
  | .hash h => some h
  | .unknown => none

omit [DecidableEq D] in
theorem txrefhashInShard_eq (C : Crypto D) (shard : BlockShard D) (txoff : Nat) :
    txrefhashInShard C shard txoff = (shard.u txoff).entry C := by
  unfold txrefhashInShard Slot.entry
  cases shard.u txoff <;> rfl

omit [Digest D] [DecidableEq D] in
theorem modBlock_self (f : Block D → Block D) : (s.modBlock b f).blk b = f (s.blk b) :=
  Function.update_self ..

omit [Digest D] [DecidableEq D] in
theorem modBlock_ne {x : Nat} (hx : x ≠ b) (f : Block D → Block D) :
    (s.modBlock b f).blk x = s.blk x :=
  Function.update_of_ne hx ..

omit [Digest D] [DecidableEq D] in
theorem shardOf_modShard (f : BlockShard D → BlockShard D) :
    (s.modShard b shardnum f).shardOf b shardnum = f (s.shardOf b shardnum) := by
  unfold State.modShard State.shardOf
  rw [modBlock_self]
  exact Function.update_self ..

omit [Digest D] [DecidableEq D] in
theorem shardOf_modShard_ne {x i : Nat} (h : ¬ (x = b ∧ i = shardnum))
    (f : BlockShard D → BlockShard D) :
    (s.modShard b shardnum f).shardOf x i = s.shardOf x i := by
  unfold State.modShard State.shardOf
  by_cases hx : x = b
  · subst hx
    rw [modBlock_self]
    exact Function.update_of_ne (fun hi => h ⟨rfl, hi⟩) ..
  · rw [modBlock_ne hx]

omit [Digest D] [DecidableEq D] in
/-- Only the shards of a block change. -/
theorem blk_modShard (f : BlockShard D → BlockShard D) (x : Nat) :
    (s.modShard b shardnum f).blk x
      = { s.blk x with shard := ((s.modShard b shardnum f).blk x).shard } := by
  unfold State.modShard
  by_cases hx : x = b
  · subst hx
    rw [modBlock_self]
  · rw [modBlock_ne hx]

omit [Digest D] [DecidableEq D] in
theorem modShard_modShard (f g : BlockShard D → BlockShard D) :
    (s.modShard b shardnum f).modShard b shardnum g = s.modShard b shardnum fun x => g (f x) := by
  unfold State.modShard State.modBlock
  simp only [Function.update_self, Function.update_idem]

/-- `s'` is `s` with one slot of one shard set to `x`, an entry `h` that was not
known or known as a hash; `txhash` may name the place. -/
structure SlotSet (E : Env D) (s s' : State D) (b shardnum txoff : Nat) (x : Slot D)
    (h : TxRefHash D) (f : BlockShard D → BlockShard D) : Prop where
  numBlocks : s'.numBlocks = s.numBlocks
  blk : s'.blk = (s.modShard b shardnum f).blk
  pending : s'.pending = s.pending
  txhash : ∀ te ∈ s'.txhash, te ∈ s.txhash ∨ te = ⟨h.txhash, .inBlock b shardnum txoff⟩
  u : (f (s.shardOf b shardnum)).u = Function.update (s.shardOf b shardnum).u txoff x
  size : (f (s.shardOf b shardnum)).size = (s.shardOf b shardnum).size
  txcount : (f (s.shardOf b shardnum)).txcount
    = countSlots (f (s.shardOf b shardnum)).u Slot.isTx (s.shardOf b shardnum).size
  hashcount : (f (s.shardOf b shardnum)).hashcount
    = countSlots (f (s.shardOf b shardnum)).u Slot.isHash (s.shardOf b shardnum).size
  entry : x.entry E.crypto = some h

section

variable {x : Slot D} {h : TxRefHash D} {f : BlockShard D → BlockShard D}

omit [DecidableEq D] in
theorem SlotSet.shardOf_self (hs : SlotSet E s s' b shardnum txoff x h f) :
    s'.shardOf b shardnum = f (s.shardOf b shardnum) := by
  unfold State.shardOf
  rw [hs.blk]
  exact shardOf_modShard f

omit [DecidableEq D] in
theorem SlotSet.shardOf_ne (hs : SlotSet E s s' b shardnum txoff x h f) {y i : Nat}
    (hne : ¬ (y = b ∧ i = shardnum)) : s'.shardOf y i = s.shardOf y i := by
  unfold State.shardOf
  rw [hs.blk]
  exact shardOf_modShard_ne hne f

omit [DecidableEq D] in
theorem SlotSet.blk_eq (hs : SlotSet E s s' b shardnum txoff x h f) (y : Nat) :
    s'.blk y = { s.blk y with shard := (s'.blk y).shard } := by
  rw [hs.blk]
  exact blk_modShard f y

omit [DecidableEq D] in
/-- The slots after: the one set, and the others as they were. -/
theorem SlotSet.slot (hs : SlotSet E s s' b shardnum txoff x h f) (y i j : Nat) :
    (s'.shardOf y i).u j
      = if y = b ∧ i = shardnum ∧ j = txoff then x else (s.shardOf y i).u j := by
  by_cases hne : y = b ∧ i = shardnum
  · obtain ⟨rfl, rfl⟩ := hne
    rw [hs.shardOf_self, hs.u]
    by_cases hj : j = txoff
    · rw [if_pos ⟨rfl, rfl, hj⟩, hj, Function.update_self]
    · rw [if_neg fun hall => hj hall.2.2, Function.update_of_ne hj]
  · rw [hs.shardOf_ne hne, if_neg fun hall => hne ⟨hall.1, hall.2.1⟩]

omit [DecidableEq D] in
/-- The entries after: what was known is still known as the same. -/
theorem SlotSet.entryAt_eq (hs : SlotSet E s s' b shardnum txoff x h f) (y i j : Nat) :
    entryAt E.crypto s' y i j
      = if y = b ∧ i = shardnum ∧ j = txoff then some h else entryAt E.crypto s y i j := by
  unfold entryAt
  rw [txrefhashInShard_eq, txrefhashInShard_eq, hs.slot]
  split_ifs with hall
  · exact hs.entry
  · rfl

/-- Filling a slot with what it is proven to hold. -/
theorem Ledger.setSlot (hl : Ledger E s) (hs : SlotSet E s s' b shardnum txoff x h f)
    (hb : b < s.numBlocks) (hproven : Proven E.crypto (s.blk b) shardnum txoff h)
    (hold : ∀ h', entryAt E.crypto s b shardnum txoff = some h' → h' = h)
    (hok : ∀ tx refs, x = .tx tx refs → TxOk E.crypto tx) : Ledger E s' := by
  have hsizes : ∀ y i, (s'.shardOf y i).size = (s.shardOf y i).size := by
    intro y i
    by_cases hne : y = b ∧ i = shardnum
    · obtain ⟨rfl, rfl⟩ := hne
      rw [hs.shardOf_self, hs.size]
    · rw [hs.shardOf_ne hne]
  have hprovenAt : ∀ y i j h', Proven E.crypto (s.blk y) i j h' →
      Proven E.crypto (s'.blk y) i j h' := by
    intro y i j h' hp
    refine hp.congr ?_ ?_ ?_ <;> rw [hs.blk_eq y]
  have hkeep : ∀ y i j h', entryAt E.crypto s y i j = some h' →
      entryAt E.crypto s' y i j = some h' := by
    intro y i j h' hentry
    rw [hs.entryAt_eq]
    split_ifs with hall
    · obtain ⟨rfl, rfl, rfl⟩ := hall
      rw [hold h' hentry]
    · exact hentry
  refine ⟨?_, ?_, ?_, ?_, ?_, ?_, ?_, ?_⟩
  · intro y i
    rw [hsizes, hl.size, hs.blk_eq y]
    rfl
  · intro y i
    by_cases hne : y = b ∧ i = shardnum
    · obtain ⟨rfl, rfl⟩ := hne
      rw [hs.shardOf_self, hs.txcount, hs.size]
    · rw [hs.shardOf_ne hne]
      exact hl.txcount y i
  · intro y i
    by_cases hne : y = b ∧ i = shardnum
    · obtain ⟨rfl, rfl⟩ := hne
      rw [hs.shardOf_self, hs.hashcount, hs.size]
    · rw [hs.shardOf_ne hne]
      exact hl.hashcount y i
  · intro y i j h' hentry
    refine hprovenAt y i j h' ?_
    rw [hs.entryAt_eq] at hentry
    split_ifs at hentry with hall
    · obtain ⟨rfl, rfl, rfl⟩ := hall
      exact Option.some.inj hentry ▸ hproven
    · exact hl.proven y i j h' hentry
  · intro te hte y i j hloc
    rw [hs.numBlocks]
    rcases hs.txhash te hte with hte | rfl
    · obtain ⟨hy, h', hentry, hsha⟩ := hl.inBlock te hte y i j hloc
      exact ⟨hy, h', hkeep y i j h' hentry, hsha⟩
    · injection hloc with hy hi hj
      subst hy hi hj
      exact ⟨hb, h, by rw [hs.entryAt_eq, if_pos ⟨rfl, rfl, rfl⟩], rfl⟩
  · intro te hte tx hloc
    rcases hs.txhash te hte with hte | rfl
    · exact hl.pending te hte tx hloc
    · exact absurd hloc (by simp)
  · intro tx htx
    rcases htx with ⟨y, i, j, refs, hslot⟩ | hpend
    · rw [hs.slot] at hslot
      split_ifs at hslot
      · exact hok tx refs hslot
      · exact hl.txOk tx (Or.inl ⟨y, i, j, refs, hslot⟩)
    · refine hl.txOk tx (Or.inr ?_)
      unfold InPending at hpend ⊢
      rw [hs.pending] at hpend
      rcases hpend with hpend | hun | ⟨te, hte, hloc⟩
      · exact Or.inl hpend
      · exact Or.inr (Or.inl hun)
      · rcases hs.txhash te hte with hte | rfl
        · exact Or.inr (Or.inr ⟨te, hte, hloc⟩)
        · exact absurd hloc (by simp)
  · intro y
    rw [hs.blk_eq y]
    exact hl.shardOrder y

end

omit [DecidableEq D] in
theorem inputhashAddTx_eq (onPending : Bool) (tx : Tx D) :
    inputhashAddTx E s onPending tx
      = { s with inputhash := (inputhashAddTx E s onPending tx).inputhash } := by
  unfold inputhashAddTx
  generalize txInputs tx = l
  induction l generalizing s with
  | nil => rfl
  | cons inp l ih =>
    rw [List.foldl_cons]
    exact ih

/-- Recording inputs changes `inputhash` only. -/
theorem recordInputs_eq (onPending : Bool) (tx : Tx D) :
    recordInputs E s onPending tx
      = { s with inputhash := (recordInputs E s onPending tx).inputhash } := by
  unfold recordInputs
  split_ifs
  · exact inputhashAddTx_eq onPending tx
  · rfl

/-- The state after an unknown slot is filled. -/
def filledUnknown (E : Env D) (s : State D) (b shardnum txoff : Nat) (tx : Tx D)
    (refs : List InputRef) : State D :=
  { s.modShard b shardnum fun shard => shard.setTx txoff tx refs with
    txhash := E.txLayout.add s.txhash ⟨hashTx E.crypto tx, .inBlock b shardnum txoff⟩
    inputhash := (recordInputs E s false tx).inputhash }

/-- The shard after a slot known as a hash is filled. -/
def BlockShard.upgradeTx (shard : BlockShard D) (txoff : Nat) (tx : Tx D)
    (refs : List InputRef) : BlockShard D :=
  { shard with hashcount := shard.hashcount - 1 }.setTx txoff tx refs

/-- The state after a slot known as a hash is filled. -/
def filledHash (E : Env D) (s : State D) (b shardnum txoff : Nat) (tx : Tx D)
    (refs : List InputRef) : State D :=
  let s' := s.modShard b shardnum fun shard => { shard with hashcount := shard.hashcount - 1 }
  { s.modShard b shardnum fun shard => shard.upgradeTx txoff tx refs with
    inputhash := (recordInputs E s' false tx).inputhash }

theorem fillSlot_of_unknown {tx : Tx D} {refs : List InputRef}
    (hu : (s.shardOf b shardnum).u txoff = .unknown) :
    fillSlot E s b shardnum txoff tx refs = .ok (filledUnknown E s b shardnum txoff tx refs) := by
  unfold fillSlot
  rw [hu]
  show Except.ok _ = Except.ok _
  unfold addTxToHashes addTxhashToHashes txhashAddTx
  rw [recordInputs_eq]
  rfl

theorem fillSlot_of_hash {tx : Tx D} {refs : List InputRef} {h : TxRefHash D}
    (hu : (s.shardOf b shardnum).u txoff = .hash h) :
    fillSlot E s b shardnum txoff tx refs
      = if h = hashTxAndRefs E.crypto tx refs then
          .ok (filledHash E s b shardnum txoff tx refs)
        else .error .putTxHashDiffers := by
  unfold fillSlot
  rw [hu]
  by_cases hh : h = hashTxAndRefs E.crypto tx refs
  · rw [if_pos hh]
    simp only [assert, hh, decide_true, if_true, ok_bind]
    unfold upgradeTxInHashes
    rw [recordInputs_eq]
    refine congrArg Except.ok ?_
    have htwice : s.modShard b shardnum (fun shard => shard.upgradeTx txoff tx refs)
        = (s.modShard b shardnum fun shard =>
            { shard with hashcount := shard.hashcount - 1 }).modShard b shardnum
              fun shard => shard.setTx txoff tx refs := by
      rw [modShard_modShard]
      rfl
    unfold filledHash
    dsimp only
    rw [htwice]
    rfl
  · rw [if_neg hh]
    simp [assert, hh]

section

variable {tx : Tx D} {refs : List InputRef}

/-- An unknown slot, filled. -/
theorem Ledger.slotSet_unknown (hl : Ledger E s) (tx : Tx D) (refs : List InputRef)
    (hu : (s.shardOf b shardnum).u txoff = .unknown)
    (hoff : txoff < (s.blk b).shardSize shardnum) :
    SlotSet E s (filledUnknown E s b shardnum txoff tx refs) b shardnum txoff (.tx tx refs)
      (hashTxAndRefs E.crypto tx refs) fun shard => shard.setTx txoff tx refs where
  numBlocks := rfl
  blk := rfl
  pending := rfl
  txhash te hte := (List.mem_cons.mp ((E.txLayout.add_perm _ _).mem_iff.mp hte)).symm
  u := rfl
  size := rfl
  txcount := by
    rw [← hl.size] at hoff
    have hcount := countSlots_update (s.shardOf b shardnum).u Slot.isTx (.tx tx refs) hoff
    rw [hu] at hcount
    have hold := hl.txcount b shardnum
    show (s.shardOf b shardnum).txcount + 1 =
      countSlots (Function.update (s.shardOf b shardnum).u txoff (.tx tx refs)) Slot.isTx
        (s.shardOf b shardnum).size
    simp only [Slot.isTx, Bool.false_eq_true, if_false, if_true] at hcount
    omega
  hashcount := by
    rw [← hl.size] at hoff
    have hcount := countSlots_update (s.shardOf b shardnum).u Slot.isHash (.tx tx refs) hoff
    rw [hu] at hcount
    have hold := hl.hashcount b shardnum
    show (s.shardOf b shardnum).hashcount =
      countSlots (Function.update (s.shardOf b shardnum).u txoff (.tx tx refs)) Slot.isHash
        (s.shardOf b shardnum).size
    simp only [Slot.isHash, Bool.false_eq_true, if_false] at hcount
    omega
  entry := rfl

/-- A slot known as a hash, filled. -/
theorem Ledger.slotSet_hash (hl : Ledger E s)
    (hu : (s.shardOf b shardnum).u txoff = .hash (hashTxAndRefs E.crypto tx refs)) :
    SlotSet E s (filledHash E s b shardnum txoff tx refs) b shardnum txoff (.tx tx refs)
      (hashTxAndRefs E.crypto tx refs) fun shard => shard.upgradeTx txoff tx refs where
  numBlocks := rfl
  blk := rfl
  pending := rfl
  txhash te hte := Or.inl hte
  u := rfl
  size := rfl
  txcount := by
    have hoff := (hl.in_range (entryAt_hash hu)).2
    have hcount := countSlots_update (s.shardOf b shardnum).u Slot.isTx (.tx tx refs) hoff
    rw [hu] at hcount
    have hold := hl.txcount b shardnum
    show (s.shardOf b shardnum).txcount + 1 =
      countSlots (Function.update (s.shardOf b shardnum).u txoff (.tx tx refs)) Slot.isTx
        (s.shardOf b shardnum).size
    simp only [Slot.isTx, Bool.false_eq_true, if_false, if_true] at hcount
    omega
  hashcount := by
    have hoff := (hl.in_range (entryAt_hash hu)).2
    have hcount := countSlots_update (s.shardOf b shardnum).u Slot.isHash (.tx tx refs) hoff
    rw [hu] at hcount
    have hold := hl.hashcount b shardnum
    show (s.shardOf b shardnum).hashcount - 1 =
      countSlots (Function.update (s.shardOf b shardnum).u txoff (.tx tx refs)) Slot.isHash
        (s.shardOf b shardnum).size
    simp only [Slot.isHash, Bool.false_eq_true, if_false, if_true] at hcount
    omega
  entry := rfl

end

/-- The state of `put_txhash_in_shard` once the hash is put. -/
def filledWithHash (E : Env D) (s : State D) (b shardnum txoff : Nat) (h : TxRefHash D) :
    State D :=
  (addTxhashToHashes E (s.modShard b shardnum fun shard => shard.setHash txoff h) b shardnum txoff
    h.txhash).setNeedsRecheck

/-- An unknown slot, filled with a hash. -/
theorem Ledger.slotSet_setHash (hl : Ledger E s) {h : TxRefHash D}
    (hu : (s.shardOf b shardnum).u txoff = .unknown)
    (hoff : txoff < (s.blk b).shardSize shardnum) :
    SlotSet E s (addTxhashToHashes E (s.modShard b shardnum fun shard => shard.setHash txoff h)
        b shardnum txoff h.txhash) b shardnum txoff (.hash h) h
      fun shard => shard.setHash txoff h where
  numBlocks := rfl
  blk := rfl
  pending := rfl
  txhash te hte := (List.mem_cons.mp ((E.txLayout.add_perm _ _).mem_iff.mp hte)).symm
  u := rfl
  size := rfl
  txcount := by
    rw [← hl.size] at hoff
    have hcount := countSlots_update (s.shardOf b shardnum).u Slot.isTx (.hash h) hoff
    rw [hu] at hcount
    have hold := hl.txcount b shardnum
    show (s.shardOf b shardnum).txcount =
      countSlots (Function.update (s.shardOf b shardnum).u txoff (.hash h)) Slot.isTx
        (s.shardOf b shardnum).size
    simp only [Slot.isTx, Bool.false_eq_true, if_false] at hcount
    omega
  hashcount := by
    rw [← hl.size] at hoff
    have hcount := countSlots_update (s.shardOf b shardnum).u Slot.isHash (.hash h) hoff
    rw [hu] at hcount
    have hold := hl.hashcount b shardnum
    show (s.shardOf b shardnum).hashcount + 1 =
      countSlots (Function.update (s.shardOf b shardnum).u txoff (.hash h)) Slot.isHash
        (s.shardOf b shardnum).size
    simp only [Slot.isHash, Bool.false_eq_true, if_false, if_true] at hcount
    omega
  entry := rfl

-- ---------------------------------------------------------------------------
-- Stored proofs
-- ---------------------------------------------------------------------------

/-- Changing what proofs a shard stores. -/
theorem Ledger.modProof (hl : Ledger E s)
    (g : BlockShard D → Option (Nat → Option (Proof D))) :
    Ledger E (s.modShard b shardnum fun shard => { shard with proof := g shard }) := by
  have hshard : ∀ y i, ∃ p, (s.modShard b shardnum fun shard =>
      { shard with proof := g shard }).shardOf y i = { s.shardOf y i with proof := p } := by
    intro y i
    by_cases hne : y = b ∧ i = shardnum
    · obtain ⟨rfl, rfl⟩ := hne
      exact ⟨_, shardOf_modShard _⟩
    · exact ⟨_, shardOf_modShard_ne hne _⟩
  have hentry : ∀ y i j, entryAt E.crypto (s.modShard b shardnum fun shard =>
      { shard with proof := g shard }) y i j = entryAt E.crypto s y i j := by
    intro y i j
    obtain ⟨p, hp⟩ := hshard y i
    unfold entryAt
    rw [hp]
    rfl
  refine ⟨?_, ?_, ?_, ?_, ?_, hl.pending, ?_, ?_⟩
  · intro y i
    obtain ⟨p, hp⟩ := hshard y i
    rw [hp, blk_modShard]
    exact hl.size y i
  · intro y i
    obtain ⟨p, hp⟩ := hshard y i
    rw [hp]
    exact hl.txcount y i
  · intro y i
    obtain ⟨p, hp⟩ := hshard y i
    rw [hp]
    exact hl.hashcount y i
  · intro y i j h hknown
    rw [hentry] at hknown
    refine (hl.proven y i j h hknown).congr ?_ ?_ ?_ <;> rw [blk_modShard]
  · intro te hte y i j hloc
    rw [hentry]
    exact hl.inBlock te hte y i j hloc
  · intro tx htx
    refine hl.txOk tx ?_
    rcases htx with ⟨y, i, j, refs, hslot⟩ | hpend
    · obtain ⟨p, hp⟩ := hshard y i
      rw [hp] at hslot
      exact Or.inl ⟨y, i, j, refs, hslot⟩
    · exact Or.inr hpend
  · intro y
    rw [blk_modShard]
    exact hl.shardOrder y

/-- Once all of a shard is known its proofs may go. -/
theorem LedgerOk.dropProofs (hl : LedgerOk E s)
    (hall : shardAllHashes (s.shardOf b shardnum) = true) :
    LedgerOk E (s.modShard b shardnum fun shard => { shard with proof := none }) where
  toLedger := hl.toLedger.modProof fun _ => none
  proofs y i j h hentry := by
    by_cases hne : y = b ∧ i = shardnum
    · obtain ⟨rfl, rfl⟩ := hne
      left
      rw [shardOf_modShard]
      exact hall
    · unfold entryAt at hentry
      rw [shardOf_modShard_ne hne] at hentry ⊢
      exact hl.proofs y i j h hentry

/-- The places known can be proven, those of `P` left out. -/
def ProofsKeptBut (C : Crypto D) (s : State D) (P : Nat → Nat → Nat → Prop) : Prop :=
  ∀ (b shardnum txoff : Nat) (h : TxRefHash D), ¬ P b shardnum txoff →
    entryAt C s b shardnum txoff = some h →
    shardAllHashes (s.shardOf b shardnum) = true ∨
      ((s.shardOf b shardnum).proof.bind (· txoff)).isSome

/-- `put_proof_in_shard` supplies the proof that is missing. -/
theorem Ledger.putProof (hl : Ledger E s) (proof : Proof D)
    (hk : ProofsKeptBut E.crypto s fun y i j =>
      y = b ∧ i = proof.pos.shard.toNat ∧ j = proof.pos.txoff.toNat) :
    LedgerOk E (putProofInShard s b proof) ∧
      (shardAllHashes ((putProofInShard s b proof).shardOf b proof.pos.shard.toNat) = true ∨
        (((putProofInShard s b proof).shardOf b proof.pos.shard.toNat).proof.bind
          (· proof.pos.txoff.toNat)).isSome) := by
  unfold putProofInShard
  dsimp only
  split_ifs with hall
  · refine ⟨⟨hl, fun y i j h hentry => ?_⟩, Or.inl hall⟩
    by_cases hP : y = b ∧ i = proof.pos.shard.toNat ∧ j = proof.pos.txoff.toNat
    · obtain ⟨rfl, rfl, rfl⟩ := hP
      exact Or.inl hall
    · exact hk y i j h hP hentry
  · have hstored : (((s.shardOf b proof.pos.shard.toNat).addProof proof).proof.bind
        (· proof.pos.txoff.toNat)).isSome := by
      unfold BlockShard.addProof
      simp
    refine ⟨⟨?_, fun y i j h hentry => ?_⟩, Or.inr ?_⟩
    · exact hl.modProof fun shard => (shard.addProof proof).proof
    · by_cases hne : y = b ∧ i = proof.pos.shard.toNat
      · obtain ⟨rfl, rfl⟩ := hne
        rw [shardOf_modShard]
        by_cases hj : j = proof.pos.txoff.toNat
        · exact Or.inr (hj ▸ hstored)
        · unfold entryAt at hentry
          rw [shardOf_modShard] at hentry
          rcases hk y _ j h (fun hP => hj hP.2.2) hentry with hold | hold
          · exact Or.inl hold
          · right
            unfold BlockShard.addProof
            cases hp : (s.shardOf y proof.pos.shard.toNat).proof with
            | none =>
              rw [hp] at hold
              exact absurd hold (by simp)
            | some proofs =>
              rw [hp] at hold
              simpa [Function.update_of_ne hj] using hold
      · unfold entryAt at hentry
        rw [shardOf_modShard_ne hne] at hentry ⊢
        exact hk y i j h (fun hP => hne ⟨hP.1, hP.2.1⟩) hentry
    · rw [shardOf_modShard]
      exact hstored

-- ---------------------------------------------------------------------------
-- Filling slots between two packets
-- ---------------------------------------------------------------------------

section

variable {tx : Tx D} {refs : List InputRef}

/-- A place that can be proven already is filled with a transaction. -/
theorem LedgerOk.filledUnknown (hl : LedgerOk E s) (hb : b < s.numBlocks)
    (hu : (s.shardOf b shardnum).u txoff = .unknown)
    (hproven : Proven E.crypto (s.blk b) shardnum txoff (hashTxAndRefs E.crypto tx refs))
    (hok : TxOk E.crypto tx)
    (hproof : shardAllHashes (s.shardOf b shardnum) = true ∨
      ((s.shardOf b shardnum).proof.bind (· txoff)).isSome) :
    LedgerOk E (filledUnknown E s b shardnum txoff tx refs) := by
  have hoff : txoff < (s.blk b).shardSize shardnum := by
    obtain ⟨proof, rfl, rfl, hacc⟩ := hproven
    exact (checkProofByhash_eq_true.mp hacc).2.1
  have hs := hl.slotSet_unknown tx refs hu hoff
  have hnotall : ¬ shardAllHashes (s.shardOf b shardnum) = true := by
    intro hall
    exact hl.filled hall txoff (by rw [hl.size]; exact hoff) hu
  have hstored := hproof.resolve_left hnotall
  refine ⟨hl.toLedger.setSlot hs hb hproven (fun h' hentry => ?_) fun tx' refs' heq => ?_, ?_⟩
  · rw [entryAt_eq_none.mpr hu] at hentry
    exact absurd hentry (by simp)
  · injection heq with heq
    exact heq ▸ hok
  · intro y i j h hentry
    by_cases hne : y = b ∧ i = shardnum
    · obtain ⟨rfl, rfl⟩ := hne
      right
      rw [hs.shardOf_self]
      rw [hs.entryAt_eq] at hentry
      split_ifs at hentry with hj
      · rw [hj.2.2]
        exact hstored
      · exact (hl.proofs y i j h hentry).resolve_left hnotall
    · rw [hs.shardOf_ne hne]
      rw [hs.entryAt_eq, if_neg fun hj => hne ⟨hj.1, hj.2.1⟩] at hentry
      exact hl.proofs y i j h hentry

/-- A hash is replaced by the transaction it is of. -/
theorem LedgerOk.filledHash (hl : LedgerOk E s)
    (hu : (s.shardOf b shardnum).u txoff = .hash (hashTxAndRefs E.crypto tx refs))
    (hb : b < s.numBlocks) (hok : TxOk E.crypto tx) :
    LedgerOk E (filledHash E s b shardnum txoff tx refs) := by
  have hs := hl.slotSet_hash hu
  have hentry := entryAt_hash (C := E.crypto) hu
  have hl' : Ledger E (Pettycoin.filledHash E s b shardnum txoff tx refs) := by
    refine hl.toLedger.setSlot hs hb (hl.proven _ _ _ _ hentry) (fun h' h'entry => ?_)
      fun tx' refs' heq => ?_
    · rw [hentry] at h'entry
      exact (Option.some.inj h'entry).symm
    · injection heq with heq
      exact heq ▸ hok
  refine ⟨hl', fun y i j h hknown => ?_⟩
  have hsame : entryAt E.crypto s y i j = some h := by
    rw [hs.entryAt_eq] at hknown
    split_ifs at hknown with hj
    · obtain ⟨rfl, rfl, rfl⟩ := hj
      rw [hentry, hknown]
    · exact hknown
  by_cases hne : y = b ∧ i = shardnum
  · obtain ⟨rfl, rfl⟩ := hne
    refine (hl.proofs y i j h hsame).imp (fun hall => ?_) fun hstored => ?_
    · refine hl'.allHashes_of_filled fun n hn => ?_
      rw [hs.shardOf_self, hs.size] at hn
      rw [hs.slot]
      split_ifs
      · simp
      · exact hl.filled hall n hn
    · rw [hs.shardOf_self]
      exact hstored
  · rw [hs.shardOf_ne hne]
    exact hl.proofs y i j h hsame

end

/-- A hash is put into an empty slot; only that place may lack a proof. -/
theorem Ledger.setHash (hl : Ledger E s) {h : TxRefHash D} {P : Nat → Nat → Nat → Prop}
    (hb : b < s.numBlocks) (hu : (s.shardOf b shardnum).u txoff = .unknown)
    (hproven : Proven E.crypto (s.blk b) shardnum txoff h)
    (hk : ProofsKeptBut E.crypto s P) (hP : P b shardnum txoff) :
    Ledger E (filledWithHash E s b shardnum txoff h) ∧
      ProofsKeptBut E.crypto (filledWithHash E s b shardnum txoff h) P := by
  have hoff : txoff < (s.blk b).shardSize shardnum := by
    obtain ⟨proof, rfl, rfl, hacc⟩ := hproven
    exact (checkProofByhash_eq_true.mp hacc).2.1
  have hs := hl.slotSet_setHash hu hoff (h := h)
  have hl' : Ledger E (addTxhashToHashes E
      (s.modShard b shardnum fun shard => shard.setHash txoff h) b shardnum txoff h.txhash) := by
    refine hl.setSlot hs hb hproven (fun h' hentry => ?_) fun tx refs heq => ?_
    · rw [entryAt_eq_none.mpr hu] at hentry
      exact absurd hentry (by simp)
    · exact absurd heq (by simp)
  have hf := (Frame.refl E (addTxhashToHashes E
      (s.modShard b shardnum fun shard => shard.setHash txoff h) b shardnum txoff
      h.txhash)).setNeedsRecheck
  refine ⟨hl'.frame hf, fun y i j h' hnP hknown => ?_⟩
  unfold filledWithHash at hknown ⊢
  rw [hf.entryAt_eq, hs.entryAt_eq] at hknown
  rw [hf.shardOf_eq]
  split_ifs at hknown with hj
  · obtain ⟨rfl, rfl, rfl⟩ := hj
    exact absurd hP hnP
  · by_cases hne : y = b ∧ i = shardnum
    · obtain ⟨rfl, rfl⟩ := hne
      refine (hk y i j h' hnP hknown).imp (fun hall => ?_) fun hstored => ?_
      · exact absurd hu (hl.filled hall txoff (by rw [hl.size]; exact hoff))
      · rw [hs.shardOf_self]
        exact hstored
    · rw [hs.shardOf_ne hne]
      exact hk y i j h' hnP hknown

-- ---------------------------------------------------------------------------
-- Later states
-- ---------------------------------------------------------------------------

/-- What a block is, whatever becomes known of it. -/
def Block.header (blk : Block D) : Block D :=
  { blk with allKnown := false, complaint := none, shard := fun i => newBlockShard i 0 }

/-- The blocks are still there, what was known of them is, and no complaint was
taken back. -/
structure Later (C : Crypto D) (s s' : State D) : Prop where
  numBlocks : s.numBlocks ≤ s'.numBlocks
  header : ∀ x : Nat, x < s.numBlocks → (s'.blk x).header = (s.blk x).header
  entry : ∀ (x i j : Nat) (h : TxRefHash D), x < s.numBlocks →
    entryAt C s x i j = some h → entryAt C s' x i j = some h
  complaint : ∀ x : Nat, x < s.numBlocks → (s.blk x).complaint.isSome →
    (s'.blk x).complaint.isSome

omit [DecidableEq D] in
theorem Later.refl (C : Crypto D) (s : State D) : Later C s s :=
  ⟨Nat.le_refl _, fun _ _ => rfl, fun _ _ _ _ _ => id, fun _ _ => id⟩

omit [DecidableEq D] in
theorem Later.hdr_eq {C : Crypto D} (h : Later C s s') (hb : b < s.numBlocks) :
    (s'.blk b).hdr = (s.blk b).hdr := by
  show (s'.blk b).header.hdr = (s.blk b).header.hdr
  rw [h.header b hb]

omit [DecidableEq D] in
theorem Later.shardNums_eq {C : Crypto D} (h : Later C s s') (hb : b < s.numBlocks) :
    (s'.blk b).shardNums = (s.blk b).shardNums := by
  show (s'.blk b).header.shardNums = (s.blk b).header.shardNums
  rw [h.header b hb]

omit [DecidableEq D] in
theorem Later.merkles_eq {C : Crypto D} (h : Later C s s') (hb : b < s.numBlocks) :
    (s'.blk b).merkles = (s.blk b).merkles := by
  show (s'.blk b).header.merkles = (s.blk b).header.merkles
  rw [h.header b hb]

theorem Later.proven {C : Crypto D} (h : Later C s s') (hb : b < s.numBlocks)
    {e : TxRefHash D} (hp : Proven C (s.blk b) shardnum txoff e) :
    Proven C (s'.blk b) shardnum txoff e :=
  hp.congr (h.hdr_eq hb) (h.shardNums_eq hb) (h.merkles_eq hb)

omit [DecidableEq D] in
theorem Later.checkProofByhash_eq [DecidableEq D] {C : Crypto D} (h : Later C s s')
    (hb : b < s.numBlocks) (proof : Proof D) (e : TxRefHash D) :
    checkProofByhash C proof (s'.blk b) e = checkProofByhash C proof (s.blk b) e :=
  checkProofByhash_congr (h.hdr_eq hb) (h.shardNums_eq hb) (h.merkles_eq hb) proof e

omit [DecidableEq D] in
theorem Later.trans {C : Crypto D} {s₁ : State D} (h : Later C s s₁) (h' : Later C s₁ s') :
    Later C s s' where
  numBlocks := h.numBlocks.trans h'.numBlocks
  header x hx := (h'.header x (hx.trans_le h.numBlocks)).trans (h.header x hx)
  entry x i j e hx hentry :=
    h'.entry x i j e (hx.trans_le h.numBlocks) (h.entry x i j e hx hentry)
  complaint x hx hc := h'.complaint x (hx.trans_le h.numBlocks) (h.complaint x hx hc)

omit [DecidableEq D] in
theorem Frame.later (hf : Frame E s₀ s) : Later E.crypto s₀ s where
  numBlocks := hf.numBlocks.ge
  header x _ := by
    show (s.blk x).core.header = (s₀.blk x).core.header
    rw [hf.core]
  entry x i j e _ hentry := by
    rw [hf.entryAt_eq]
    exact hentry
  complaint x _ := hf.complaint x

omit [DecidableEq D] in
theorem SlotSet.later {x : Slot D} {h : TxRefHash D} {f : BlockShard D → BlockShard D}
    (hs : SlotSet E s s' b shardnum txoff x h f)
    (hold : ∀ h', entryAt E.crypto s b shardnum txoff = some h' → h' = h) :
    Later E.crypto s s' where
  numBlocks := hs.numBlocks.ge
  header y _ := by
    rw [hs.blk_eq y]
    rfl
  entry y i j e _ hentry := by
    rw [hs.entryAt_eq]
    split_ifs with hall
    · obtain ⟨rfl, rfl, rfl⟩ := hall
      rw [hold e hentry]
    · exact hentry
  complaint y _ hc := by
    rw [hs.blk_eq y]
    exact hc

omit [DecidableEq D] in
theorem later_modProof (C : Crypto D) (g : BlockShard D → Option (Nat → Option (Proof D))) :
    Later C s (s.modShard b shardnum fun shard => { shard with proof := g shard }) where
  numBlocks := Nat.le_refl _
  header y _ := by
    rw [blk_modShard]
    rfl
  entry y i j e _ hentry := by
    unfold entryAt at hentry ⊢
    by_cases hne : y = b ∧ i = shardnum
    · obtain ⟨rfl, rfl⟩ := hne
      rw [shardOf_modShard]
      exact hentry
    · rw [shardOf_modShard_ne hne]
      exact hentry
  complaint y _ hc := by
    rw [blk_modShard]
    exact hc

omit [DecidableEq D] in
theorem later_sewBlock (C : Crypto D) (hprev : prev < s.numBlocks) :
    Later C s (sewBlock s prev nb) where
  numBlocks := by
    rw [(sewBlock_same s prev nb).1]
    omega
  header x hx := by rw [blk_sewBlock_old hprev (by omega)]
  entry x i j e hx hentry := by
    unfold entryAt State.shardOf at hentry ⊢
    rw [blk_sewBlock_old hprev (by omega)]
    exact hentry
  complaint x hx hc := by
    rw [blk_sewBlock_old hprev (by omega)]
    exact hc

/-- A later state between two packets. -/
structure Advanced (E : Env D) (s₀ s : State D) : Prop where
  ledger : LedgerOk E s
  later : Later E.crypto s₀ s

theorem LedgerOk.advanced (hl : LedgerOk E s) : Advanced E s s := ⟨hl, Later.refl _ _⟩

theorem Advanced.frame (ha : Advanced E s₀ s) (hf : Frame E s s') : Advanced E s₀ s' :=
  ⟨ha.ledger.frame hf, ha.later.trans hf.later⟩

theorem Advanced.emit (ha : Advanced E s₀ s) (e : Event D) : Advanced E s₀ (s.emit e) :=
  ha.frame ((Frame.refl E s).emit e)

end Pettycoin
