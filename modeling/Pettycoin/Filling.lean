import Pettycoin.InputRecords
import Pettycoin.Lookups

/-!
# Pettycoin — a block of pending transactions fills up

When the generator's block comes in, its slots are unknown; then shard after shard
the hashes are put, and each is resolved with the pending transaction. All the
while the other blocks, the pending arrays and `inputhash` stay as they were, and
`txhash` gains the places of the block (`Filling`).

So the lookups find for a pending transaction what they found before: its inputs
pass (`Filling.checkTxInputs_ok`), its refs are the same (`Filling.createRefs_eq`),
and `check_block_shard` has nothing against it (`Filling.checkBlockShard_ok`).

* `JustMined.filling` — at first nothing is known;
* `JustMined.spender_eq` — nobody else spends what a pending transaction spends;
* `Filling.lies_iff` — what the lookups find from the block;
* `Filling.checkBlockShard_ok` — no stage is in the way of a transaction.
-/

namespace Pettycoin

open ExceptRules Forest

variable {D : Type} [Digest D] {E : Env D} {s₁ s s' : State D} {b : Nat} {k m : Nat → Nat}

-- ---------------------------------------------------------------------------
-- Shards
-- ---------------------------------------------------------------------------

/-- A slot of a shard for these transactions when the first `k` hashes are known, the first
`m` of them as transactions. -/
def partSlot (C : Crypto D) (l : List (PendingTx D)) (k m j : Nat) : Slot D :=
  match l[j]? with
  | none => .unknown
  | some t =>
    if j < m then .tx t.tx t.refs
    else if j < k then .hash (hashTxAndRefs C t.tx t.refs)
    else .unknown

/-- The shard. -/
def partShard (C : Crypto D) (shardnum : Nat) (l : List (PendingTx D)) (k m : Nat) :
    BlockShard D :=
  { shardnum := shardnum, txcount := m, hashcount := k - m, size := l.length, proof := none
    u := partSlot C l k m }

/-- The hashes come before the transactions. -/
structure PartWay (len k m : Nat) : Prop where
  le : m ≤ k
  le_len : k ≤ len
  full : m = 0 ∨ k = len

section

variable {C : Crypto D} {l : List (PendingTx D)} {n j : Nat} {t : PendingTx D}

theorem partSlot_eq_tx {k m : Nat} {tx : Tx D} {refs : List InputRef} :
    partSlot C l k m j = .tx tx refs ↔ l[j]? = some ⟨tx, refs⟩ ∧ j < m := by
  unfold partSlot
  cases l[j]? with
  | none => simp
  | some t =>
    obtain ⟨tx', refs'⟩ := t
    by_cases hm : j < m
    · simp [hm]
    · by_cases hk : j < k <;> simp [hm, hk]

theorem partSlot_hash {k m : Nat} (ht : l[j]? = some t) (hm : m ≤ j) (hk : j < k) :
    partSlot C l k m j = .hash (hashTxAndRefs C t.tx t.refs) := by
  unfold partSlot
  rw [ht]
  simp [hk, Nat.not_lt.mpr hm]

theorem partSlot_unknown {k m : Nat} (hle : m ≤ k) (hk : k ≤ j) :
    partSlot C l k m j = .unknown := by
  unfold partSlot
  have hm : ¬ j < m := by omega
  cases l[j]? <;> simp [hm, Nat.not_lt.mpr hk]

/-- A new shard. -/
theorem partShard_zero (C : Crypto D) (i : Nat) (l : List (PendingTx D)) :
    partShard C i l 0 0 = newBlockShard i l.length := by
  have hu : partSlot C l 0 0 = fun _ => Slot.unknown :=
    funext fun j => partSlot_unknown (Nat.le_refl 0) (Nat.zero_le j)
  unfold partShard newBlockShard
  rw [hu]

/-- One more hash. -/
theorem setHash_partShard {i k : Nat} (ht : l[k]? = some t) :
    (partShard C i l k 0).setHash k (hashTxAndRefs C t.tx t.refs) = partShard C i l (k + 1) 0 := by
  have hu : Function.update (partSlot C l k 0) k (.hash (hashTxAndRefs C t.tx t.refs))
      = partSlot C l (k + 1) 0 := by
    funext j
    by_cases hj : j = k
    · subst hj
      rw [Function.update_self, partSlot_hash ht (Nat.zero_le j) (Nat.lt_succ_self j)]
    · rw [Function.update_of_ne hj]
      unfold partSlot
      have hiff : j < k + 1 ↔ j < k := by omega
      simp only [hiff]
  unfold partShard BlockShard.setHash
  rw [hu]
  rfl

/-- One more transaction. -/
theorem upgradeTx_partShard {i k m : Nat} (ht : l[m]? = some t) (hm : m < k) :
    (partShard C i l k m).upgradeTx m t.tx t.refs = partShard C i l k (m + 1) := by
  have hu : Function.update (partSlot C l k m) m (.tx t.tx t.refs) = partSlot C l k (m + 1) := by
    funext j
    by_cases hj : j = m
    · subst hj
      rw [Function.update_self]
      exact (partSlot_eq_tx.mpr ⟨ht, Nat.lt_succ_self j⟩).symm
    · rw [Function.update_of_ne hj]
      unfold partSlot
      have hiff : j < m + 1 ↔ j < m := by omega
      simp only [hiff]
  have hcount : k - m - 1 = k - (m + 1) := by omega
  unfold partShard BlockShard.upgradeTx BlockShard.setTx
  dsimp only
  rw [hu, hcount]

theorem partSlot_of_some {k m : Nat} (ht : l[j]? = some t) :
    partSlot C l k m j = if j < m then .tx t.tx t.refs
      else if j < k then .hash (hashTxAndRefs C t.tx t.refs) else .unknown := by
  unfold partSlot
  rw [ht]

@[simp]
theorem partShard_u (C : Crypto D) (i : Nat) (l : List (PendingTx D)) (k m : Nat) :
    (partShard C i l k m).u = partSlot C l k m := rfl

/-- The entries of a shard whose hashes are all known. -/
theorem txrefhashInShard_partShard {i m : Nat} :
    txrefhashInShard C (partShard C i l l.length m) j
      = (l.map fun t => hashTxAndRefs C t.tx t.refs)[j]? := by
  unfold txrefhashInShard
  rw [partShard_u, List.getElem?_map]
  cases ht : l[j]? with
  | none =>
    unfold partSlot
    rw [ht]
    rfl
  | some t =>
    have hlt : j < l.length := (List.getElem?_eq_some_iff.mp ht).1
    rw [partSlot_of_some ht, if_pos hlt]
    split_ifs <;> rfl

omit [Digest D] in
/-- How many of the first `n` places lie between two. -/
theorem countP_range_between {p : Nat → Bool} {a c n : Nat} (hle : a ≤ c)
    (hp : ∀ j < n, p j = decide (a ≤ j ∧ j < c)) :
    (List.range n).countP p = min c n - min a n := by
  induction n with
  | zero => simp
  | succ n ih =>
    rw [List.range_succ, List.countP_append, List.countP_singleton,
      ih fun j hj => hp j (by omega), hp n (Nat.lt_succ_self n)]
    by_cases hn : a ≤ n ∧ n < c
    · rw [decide_eq_true hn, if_pos rfl]
      omega
    · rw [decide_eq_false hn, if_neg Bool.false_ne_true]
      omega

/-- The count of transactions. -/
theorem countP_tx_partShard {i k m : Nat} (h : PartWay l.length k m) :
    (List.range l.length).countP (fun j => (txFor (partShard C i l k m) j).isSome) = m := by
  have hle := h.le.trans h.le_len
  rw [countP_range_between (a := 0) (c := m) (Nat.zero_le m) fun j hj => ?_]
  · omega
  · unfold txFor
    rw [partShard_u, partSlot_of_some (List.getElem?_eq_getElem hj)]
    split_ifs <;> simp [*]

/-- The count of hashes. -/
theorem countP_hash_partShard {i k m : Nat} (h : PartWay l.length k m) :
    (List.range l.length).countP (fun j => !shardIsTx (partShard C i l k m) j) = k - m := by
  have hle := h.le
  have hlen := h.le_len
  rw [countP_range_between (a := m) (c := k) hle fun j hj => ?_]
  · omega
  · unfold shardIsTx
    rw [partShard_u, partSlot_of_some (List.getElem?_eq_getElem hj)]
    split_ifs with hm hk
    · simp [hm]
    · simp [hk, Nat.le_of_not_lt hm]
    · simp [hk]

end

-- ---------------------------------------------------------------------------
-- The pending transactions
-- ---------------------------------------------------------------------------

variable [DecidableEq D]

/-- The pending transactions are in order and in their shards, their inputs are fine in the chain
of `b`, and their refs are those that `create_refs` makes from there. -/
structure PendingFor (E : Env D) (s : State D) (b : BlockId) (offset : UInt32) : Prop where
  pendOk : PendOk s.pending.pend
  sorted : ∀ i, (s.pending.pend i).Pairwise fun t t' => TxBefore E t.tx t'.tx
  inShard : ∀ i, ∀ t ∈ s.pending.pend i, shardOfTx E.crypto E.past t.tx (nextShardOrder b) = i
  inputs : ∀ i, ∀ t ∈ s.pending.pend i, ∃ n, checkTxInputs E s b none t.tx = .ok (.ok, n)
  refs : ∀ i, ∀ t ∈ s.pending.pend i, createRefs s b t.tx offset = some t.refs
  apart : ∀ i i', ∀ t ∈ s.pending.pend i, ∀ t' ∈ s.pending.pend i', t.tx ≠ t'.tx →
    ∀ inp ∈ txInputs t.tx, ∀ inp' ∈ txInputs t'.tx,
      inp.input = inp'.input → inp.output ≠ inp'.output
  notInChain : ∀ i, ∀ t ∈ s.pending.pend i,
    txhashGettxAncestor s (hashTx E.crypto t.tx) b = none
  held : ∀ i, ∀ t ∈ s.pending.pend i, HeldPending E s t.tx

/-- `recheck_tx` has nothing to complain about at this place: the block has no complaint, none
of the inputs of a transaction known there is known in full, and no ref of it names a place of
another transaction. -/
structure StaysQuiet (E : Env D) (s : State D) (b : BlockId) (shardnum txoff : Nat) : Prop where
  clean : (s.blk b).complaint = none
  inputs : ∀ tx refs, (s.shardOf b shardnum).u txoff = .tx tx refs → ∀ inp ∈ txInputs tx,
    ∀ y i j : Nat, Lies s inp.input b (y, i, j) → blockGetTx s y i j = none
  refs : ∀ tx refs, (s.shardOf b shardnum).u txoff = .tx tx refs →
    ∃ r, checkTxRefs E.crypto s b tx refs = .ok r ∧ r.1 ≠ .badHash

/-- Nothing is in the way of the pending transactions: each input is in one place of the chain
of `b` only, and whatever spends from a pending transaction already stays quiet. -/
structure Undisturbed (E : Env D) (s : State D) (b : BlockId) : Prop where
  single : ∀ i, ∀ t ∈ s.pending.pend i, ∀ inp ∈ txInputs t.tx, ∀ place place',
    Lies s inp.input b place → Lies s inp.input b place' → place' = place
  spenders : ∀ i, ∀ t ∈ s.pending.pend i, ∀ n < numOutputs t.tx,
    ∀ ie ∈ inputhashVals s (hashTx E.crypto t.tx) (UInt16.ofNat n),
    ∀ te ∈ txhashVals s ie.usedBy, ∀ y i' j' : Nat, te.loc = .inBlock y i' j' →
      StaysQuiet E s y i' j'

section

variable {o : UInt32} {i i' j j' : Nat} {t t' : PendingTx D} {inp : Input D}

omit [Digest D] in
/-- What `create_refs` finds. -/
theorem lies_of_createRefs {tx : Tx D} {refs : List InputRef}
    (h : createRefs s b tx o = some refs) (hinp : inp ∈ txInputs tx) :
    ∃ place, txhashGettxAncestor s inp.input b = some place := by
  unfold createRefs at h
  have hall := forall₂_of_mapM h
  obtain ⟨ref, -, hone⟩ : ∃ ref ∈ refs, resolveInput s b inp o = some ref := by
    obtain ⟨n, hn, rfl⟩ := List.getElem_of_mem hinp
    have hn' : n < refs.length := hall.length_eq ▸ hn
    exact ⟨refs[n], List.getElem_mem hn', (List.forall₂_iff_get.mp hall).2 n hn hn'⟩
  unfold resolveInput at hone
  cases hfind : txhashGettxAncestor s inp.input b with
  | none =>
    rw [hfind] at hone
    exact absurd hone (by simp)
  | some place => exact ⟨place, rfl⟩

variable (h : PendingFor E s b o)
include h

/-- No pending transaction spends from a pending transaction. -/
theorem PendingFor.not_spent (ht : t ∈ s.pending.pend i) (ht' : t' ∈ s.pending.pend i')
    (hinp : inp ∈ txInputs t'.tx) : inp.input ≠ hashTx E.crypto t.tx := by
  intro heq
  obtain ⟨place, hplace⟩ := lies_of_createRefs (h.refs i' t' ht') hinp
  rw [heq, h.notInChain i t ht] at hplace
  exact absurd hplace (by simp)

/-- A pending transaction is in one place only. -/
theorem PendingFor.place_unique (ht : (s.pending.pend i)[j]? = some t)
    (ht' : (s.pending.pend i')[j']? = some t') (heq : t.tx = t'.tx) : i = i' ∧ j = j' := by
  have hi : i = i' := by
    rw [← h.inShard i t (List.mem_of_getElem? ht), ← h.inShard i' t' (List.mem_of_getElem? ht'), heq]
  subst hi
  refine ⟨rfl, ?_⟩
  obtain ⟨hj, rfl⟩ := List.getElem?_eq_some_iff.mp ht
  obtain ⟨hj', rfl⟩ := List.getElem?_eq_some_iff.mp ht'
  have hself : ∀ tx : Tx D, ¬ TxBefore E tx tx := fun tx hlt => by
    have hrefl : txCmp E.crypto E.past tx tx = .eq := Std.ReflCmp.compare_self
    rw [TxBefore, hrefl] at hlt
    exact absurd hlt (by simp)
  have hbefore := List.pairwise_iff_getElem.mp (h.sorted i)
  rcases Nat.lt_trichotomy j j' with hlt | heq' | hgt
  · exact absurd (heq ▸ hbefore j j' hj hj' hlt) (hself _)
  · exact heq'
  · exact absurd (heq ▸ hbefore j' j hj' hj hgt) (hself _)

end


-- ---------------------------------------------------------------------------
-- The block, and what is known of it
-- ---------------------------------------------------------------------------

/-- `b` is the block of the pending transactions, added last: nothing is known of it yet, and the
pending transactions are as they should be on it. -/
structure JustMined (E : Env D) (s : State D) (b : BlockId) : Prop where
  lt : b < s.numBlocks
  ledger : Ledger E s
  kept : ProofsKept E.crypto s
  recorded : InputsRecorded E s
  clean : (s.blk b).complaint = none
  leaf : ∀ x : Nat, prevOf s x ≠ some b
  unnamed : ∀ te ∈ s.txhash, ∀ i j : Nat, te.loc ≠ .inBlock b i j
  shard : ∀ i : Nat, s.shardOf b i = newBlockShard i (s.pending.pend i).length
  root : ∀ i : Nat, s.pending.pend i ≠ [] →
    (s.blk b).merkles[i]? = some (hashesRoot E.crypto (pendHashes E.crypto s.pending.pend i))
  pending : PendingFor E s b 0
  undisturbed : Undisturbed E s b

/-- From `s₁` to `s` the first `k` hashes of each shard of `b` have become known, the first `m`
of them as transactions. -/
structure Filling (E : Env D) (s₁ : State D) (b : BlockId) (k m : Nat → Nat) (s : State D) :
    Prop where
  numBlocks : s.numBlocks = s₁.numBlocks
  blk : ∀ x : Nat,
    s.blk x = { s₁.blk x with shard := (s.blk x).shard, allKnown := (s.blk x).allKnown }
  old : ∀ x : Nat, x ≠ b → (s.blk x).shard = (s₁.blk x).shard
  shard : ∀ i : Nat, s.shardOf b i = partShard E.crypto i (s₁.pending.pend i) (k i) (m i)
  partWay : ∀ i : Nat, PartWay (s₁.pending.pend i).length (k i) (m i)
  pend : s.pending.pend = s₁.pending.pend
  txhash : ∀ te, te ∈ s.txhash ↔ te ∈ s₁.txhash ∨ ∃ (i j : Nat) (t : PendingTx D), j < k i ∧
    (s₁.pending.pend i)[j]? = some t ∧ te = ⟨hashTx E.crypto t.tx, .inBlock b i j⟩
  inputhash : s.inputhash = s₁.inputhash
  now : s.now = s₁.now

/-- At first. -/
theorem JustMined.filling (h : JustMined E s b) : Filling E s b (fun _ => 0) (fun _ => 0) s where
  numBlocks := rfl
  blk _ := rfl
  old _ _ := rfl
  shard i := by rw [h.shard, partShard_zero]
  partWay i := ⟨Nat.le_refl 0, Nat.zero_le _, .inl rfl⟩
  pend := rfl
  txhash te := by simp
  inputhash := rfl
  now := rfl

/-- Whoever is found to spend an output that a pending transaction spends, in the block itself,
is that transaction. -/
theorem JustMined.spender_eq (hj : JustMined E s₁ b) {i i' j j' : Nat} {t t' : PendingTx D}
    {inp : Input D} (hinj : Function.Injective E.crypto.doubleSha)
    (ht : (s₁.pending.pend i)[j]? = some t) (ht' : (s₁.pending.pend i')[j']? = some t')
    (hinp : inp ∈ txInputs t.tx) {ie : InputhashElem D}
    (hie : ie ∈ inputhashVals s₁ inp.input inp.output)
    (hsha : hashTx E.crypto t'.tx = ie.usedBy) : i = i' ∧ j = j' := by
  obtain ⟨hmem, hkey⟩ := List.mem_filter.mp hie
  obtain ⟨hkeyIn, hkeyOut⟩ : ie.tx = inp.input ∧ ie.outputNum = inp.output := by
    simpa using hkey
  obtain ⟨tx, husedBy, inp', hinp', hin, hout⟩ := hj.recorded ie hmem
  obtain rfl : tx = t'.tx := hashTx_injective hinj (husedBy.trans hsha.symm)
  refine hj.pending.place_unique ht ht' ?_
  by_contra hne
  refine hj.pending.apart i i' t (List.mem_of_getElem? ht) t' (List.mem_of_getElem? ht') hne inp
    hinp inp' hinp' ?_ ?_
  · rw [hin, hkeyIn]
  · rw [hout, hkeyOut]

omit [Digest D] [DecidableEq D] in
/-- What comes before what depends on the links and the depths. -/
theorem blockPreceeds_congr (hprev : ∀ x : Nat, (s'.blk x).prev = (s.blk x).prev)
    (hdepth : ∀ x : Nat, (s'.blk x).depth = (s.blk x).depth) (a x : Nat) :
    blockPreceeds s' a x = blockPreceeds s a x := by
  have key : ∀ n x, blockPreceedsFrom s' a n x = blockPreceedsFrom s a n x := by
    intro n
    induction n with
    | zero => exact fun x => rfl
    | succ n ih =>
      intro x
      unfold blockPreceedsFrom
      rw [hdepth, hdepth, hprev]
      cases (s.blk x).prev with
      | none => rfl
      | some p => simp only [ih]
  unfold blockPreceeds
  rw [hdepth, key]

namespace Filling

variable {i i' j j' : Nat} {t t' : PendingTx D} {inp : Input D}

omit [DecidableEq D] in
theorem prevOf_eq (h : Filling E s₁ b k m s) : prevOf s = prevOf s₁ := by
  funext x
  unfold prevOf
  rw [h.blk x]

omit [DecidableEq D] in
theorem blockPreceeds_eq (h : Filling E s₁ b k m s) (x y : Nat) :
    blockPreceeds s x y = blockPreceeds s₁ x y :=
  blockPreceeds_congr (congrFun h.prevOf_eq) (fun z => by
    unfold Block.depth
    rw [h.blk z]) x y

theorem beside (h : Filling E s₁ b k m s) (hj : JustMined E s₁ b) : Beside b s₁ s where
  leaf := hj.leaf
  blk x hx := by rw [h.blk x, h.old x hx]
  elems sha y i j hy := by
    rw [h.txhash]
    refine or_iff_left ?_
    rintro ⟨i', j', t, -, -, heq⟩
    injection heq with _ hloc
    injection hloc with hyb
    exact hy hyb

omit [DecidableEq D] in
/-- What the lookups from `b` find: what they found before, and what is known of `b`. -/
theorem lies_iff (h : Filling E s₁ b k m s) {sha : D} {place : BlockId × Nat × Nat}
    {x : BlockId} : Lies s sha x place ↔ Lies s₁ sha x place ∨ ∃ (i j : Nat) (t : PendingTx D),
      j < k i ∧ (s₁.pending.pend i)[j]? = some t ∧ hashTx E.crypto t.tx = sha ∧
      place = (b, i, j) ∧ blockPreceeds s₁ b x = true := by
  unfold Lies
  simp only [h.txhash, h.blockPreceeds_eq]
  constructor
  · rintro ⟨te, hold | ⟨i, j, t, hk, ht, rfl⟩, hsha, hloc, hpre⟩
    · exact .inl ⟨te, hold, hsha, hloc, hpre⟩
    · obtain ⟨y, i', j'⟩ := place
      obtain ⟨rfl, rfl, rfl⟩ : b = y ∧ i = i' ∧ j = j' := by simpa using hloc
      exact .inr ⟨i, j, t, hk, ht, hsha, rfl, hpre⟩
  · rintro (⟨te, hold, hsha, hloc, hpre⟩ | ⟨i, j, t, hk, ht, rfl, rfl, hpre⟩)
    · exact ⟨te, .inl hold, hsha, hloc, hpre⟩
    · exact ⟨_, .inr ⟨i, j, t, hk, ht, rfl⟩, rfl, rfl, hpre⟩

section

variable (h : Filling E s₁ b k m s) (hj : JustMined E s₁ b)
include h hj

/-- The inputs of a pending transaction are where they were. -/
theorem lookup (ht : t ∈ s₁.pending.pend i) (hinp : inp ∈ txInputs t.tx) :
    ∃ place, txhashGettxAncestor s₁ inp.input b = some place ∧
      txhashGettxAncestor s inp.input b = some place ∧ place.1 ≠ b := by
  obtain ⟨place, hplace⟩ := lies_of_createRefs (hj.pending.refs i t ht) hinp
  have hlies := lies_of_lookup hplace
  refine ⟨place, hplace, txhashGettxAncestor_eq_some (h.lies_iff.mpr (.inl hlies))
    fun place' hplace' => ?_, ?_⟩
  · rcases h.lies_iff.mp hplace' with hold | ⟨i', j', t', -, ht', hsha, -⟩
    · exact hj.undisturbed.single i t ht inp hinp place place' hlies hold
    · exact absurd hsha.symm (hj.pending.not_spent (List.mem_of_getElem? ht') ht hinp)
  · obtain ⟨te, hmem, -, hloc, -⟩ := hlies
    intro hb
    rw [hb] at hloc
    exact hj.unnamed te hmem _ _ hloc

/-- **The refs made for the block are those that are pending.** -/
theorem createRefs_eq (ht : t ∈ s₁.pending.pend i) : createRefs s b t.tx 0 = some t.refs := by
  rw [← hj.pending.refs i t ht]
  refine createRefs_congr fun inp hinp => ?_
  obtain ⟨place, hold, hnew, -⟩ := h.lookup hj ht hinp
  refine resolveInput_congr (hnew.trans hold.symm) h.now fun y _ _ _ => ⟨?_, ?_⟩
  · rw [h.blk y]
  · rw [h.blk y, h.blk b]

/-- No other known transaction spends what the transaction at this place spends. -/
theorem not_doublespent (hinj : Function.Injective E.crypto.doubleSha)
    (ht : (s₁.pending.pend i)[j]? = some t) (hinp : inp ∈ txInputs t.tx)
    (hold : txFindDoublespend s₁ b none inp = none) :
    txFindDoublespend s b (some (b, i, j)) inp = none := by
  rw [txFindDoublespend_eq_none] at hold ⊢
  intro ie hie te hte y i' j' hloc
  have hie' : ie ∈ inputhashVals s₁ inp.input inp.output := by
    unfold inputhashVals at hie ⊢
    rw [← h.inputhash]
    exact hie
  obtain ⟨hmem, hsha⟩ := List.mem_filter.mp hte
  rcases (h.txhash te).mp hmem with hmem | ⟨i'', j'', t', -, ht', rfl⟩
  · -- in another block: as before
    have hy : y ≠ b := by
      rintro rfl
      exact hj.unnamed te hmem _ _ hloc
    rcases hold ie hie' te (List.mem_filter.mpr ⟨hmem, hsha⟩) y i' j' hloc with hme | htx | hpre
    · exact absurd hme (by simp)
    · refine .inr (.inl ?_)
      rw [(h.beside hj).shardOf_eq hy]
      exact htx
    · refine .inr (.inr ?_)
      rw [h.blockPreceeds_eq, h.blockPreceeds_eq]
      exact hpre
  · obtain ⟨rfl, rfl, rfl⟩ : b = y ∧ i'' = i' ∧ j'' = j' := by simpa using hloc
    obtain ⟨rfl, rfl⟩ := hj.spender_eq hinj ht ht' hinp hie' (beq_iff_eq.mp hsha)
    exact .inl rfl

/-- **Its inputs pass** in the block. -/
theorem checkTxInputs_ok (hinj : Function.Injective E.crypto.doubleSha)
    (ht : (s₁.pending.pend i)[j]? = some t) :
    ∃ n, checkTxInputs E s b (some (b, i, j)) t.tx = .ok (.ok, n) := by
  have hmem := List.mem_of_getElem? ht
  obtain ⟨n, hok⟩ := hj.pending.inputs i t hmem
  refine ⟨n, checkTxInputs_carried (fun inp hinp addr amount hone => ?_) hok⟩
  obtain ⟨intx, ⟨y, i', j', hfind, htx⟩, hout⟩ := checkOneInput_ok hone
  obtain ⟨place, hold, hnew, hplace⟩ := h.lookup hj hmem hinp
  obtain rfl := Option.some.inj (hfind.symm.trans hold)
  refine checkOneInput_of_found hnew ?_ hout
    (h.not_doublespent hj hinj ht hinp (not_spent_of_checkOneInput hone))
  rw [(h.beside hj).blockGetTx_eq hplace]
  exact htx

/-- The transactions of the block were pending, and passed `check_tx`. -/
theorem checkTx_none (ht : t ∈ s₁.pending.pend i) : checkTx E.crypto s t.tx (some b) = .none := by
  have hok := hj.ledger.txOk t.tx (.inr (.inl ⟨i, t, ht, rfl⟩)) s
  have horder : (s.blk b).hdr.shardOrder = protocolInitialShardOrder := by
    rw [h.blk b]
    exact hj.ledger.shardOrder b
  unfold checkTx at hok ⊢
  cases htx : t.tx with
  | fromGateway tx =>
    rw [htx] at hok
    simp only [horder]
    exact hok
  | normal tx =>
    rw [htx] at hok
    exact hok
  | toGateway tx =>
    rw [htx] at hok
    exact hok
  | claim tx =>
    rw [htx] at hok
    exact hok

theorem shardSize_eq (i : Nat) : (s.blk b).shardSize i = (s₁.pending.pend i).length := by
  have hsize := hj.ledger.size b i
  rw [hj.shard] at hsize
  rw [h.blk b]
  exact hsize.symm

/-- The hashes of the shard have its merkle. -/
theorem merkleTxs_ok (hne : s₁.pending.pend i ≠ []) (hall : k i = (s₁.pending.pend i).length) :
    ∃ sha, merkleTxs E.crypto (s.shardOf b i) = .ok sha ∧ (s.blk b).merkles[i]? = some sha := by
  refine ⟨hashesRoot E.crypto (pendHashes E.crypto s₁.pending.pend i), ?_, ?_⟩
  · have hlen : (pendHashes E.crypto s₁.pending.pend i).length = (s.shardOf b i).size := by
      rw [h.shard]
      exact List.length_map _
    rw [merkleTxs_eq_merkleHashes hlen fun n _ => ?_, merkleHashes_eq_entriesRoot]
    · rfl
    · rw [h.shard, hall]
      exact txrefhashInShard_partShard
  · rw [h.blk b]
    exact hj.root i hne

/-- **`check_block_shard` passes.** -/
theorem checkBlockShard_ok (hinj : Function.Injective E.crypto.doubleSha)
    (hne : s₁.pending.pend i ≠ []) (fault : Fault) : checkBlockShard E s b i fault = .ok () := by
  have hpart := h.partWay i
  have hshard := h.shard i
  have hsize : (s.shardOf b i).size = (s.blk b).shardSize i := by
    rw [hshard, h.shardSize_eq hj]
    rfl
  have hproof : checkShardProof (s.shardOf b i) fault = .ok () := by
    unfold checkShardProof
    rw [hshard]
    split_ifs with hall htx
    · rfl
    · -- as long as a hash is missing, there is no transaction
      rcases hpart.full with hm | hk
      · exact absurd hm htx
      · refine absurd ?_ hall
        have hle := hpart.le
        show (m i + (k i - m i) == (s₁.pending.pend i).length) = true
        rw [beq_iff_eq]
        omega
    · rfl
  have htx : ∀ (j : Nat) (tx : Tx D) (refs : List InputRef),
      (s.shardOf b i).u j = .tx tx refs → checkShardTx E s b i j tx refs fault = .ok () := by
    intro j tx refs hslot
    rw [hshard, partShard_u, partSlot_eq_tx] at hslot
    obtain ⟨n, hinputs⟩ := h.checkTxInputs_ok hj hinj hslot.1
    have hcheck := h.checkTx_none hj (List.mem_of_getElem? hslot.1)
    unfold checkShardTx
    dsimp only at hinputs hcheck
    rw [hcheck, hinputs, hshard]
    rfl
  have hcounts : (List.range (s.shardOf b i).size).countP
        (fun j => (txFor (s.shardOf b i) j).isSome) = (s.shardOf b i).txcount ∧
      (List.range (s.shardOf b i).size).countP
        (fun j => !shardIsTx (s.shardOf b i) j) = (s.shardOf b i).hashcount := by
    rw [hshard]
    exact ⟨countP_tx_partShard hpart, countP_hash_partShard hpart⟩
  unfold checkBlockShard
  dsimp only
  rw [hproof, forM_ok, hcounts.1, hcounts.2]
  · simp only [hsize, assert, decide_true, if_true, ok_bind]
    split_ifs with hall
    · have hk : k i = (s₁.pending.pend i).length := by
        have hle := hpart.le
        rw [← h.shardSize_eq hj, ← hall, hshard]
        show k i = m i + (k i - m i)
        omega
      obtain ⟨sha, hsha, hmerkle⟩ := h.merkleTxs_ok hj hne hk
      rw [hsha, ok_bind, hmerkle]
      simp
    · rfl
  · intro j _
    cases hslot : (s.shardOf b i).u j with
    | unknown => rfl
    | hash e => rfl
    | tx tx refs => exact htx j tx refs hslot

end

end Filling

end Pettycoin
