import Pettycoin.DropPending
import Pettycoin.InputRecords
import Pettycoin.Lookups

/-!
# Pettycoin — listing what an address can spend

`listtransactions.c`, without the text that it makes of a transaction. On the preferred chain
it walks back to the horizon, over every shard. Of the pending block it takes the order of the
shards for their number: it searches two of the four, and the list of those with unknown
inputs. What an output was spent by it looks up in the two hash tables. So nothing is missing,
and nothing too much, exactly if these agree with the blocks and no payment that can be spent
is pending in the other shards (`transactions_listed_iff`).

* `existingTxs_eq` — the walk over the blocks;
* `spendRecorded_iff` — what the tables say was spent;
* `spendRecorded_iff_spentOnChain` — that it was spent on the chain, if they agree with the
  blocks;
* `transactions_listed_iff` — when every payment is reported.
-/

namespace Pettycoin

open ExceptRules Forest

variable {D : Type} [Digest D] [DecidableEq D]

-- ---------------------------------------------------------------------------
-- listtransactions.c
-- ---------------------------------------------------------------------------

/-- What `json_append_tx()` is given: no block for a pending transaction. -/
structure ListedTx (D : Type) where
  tx : Tx D
  block : Option BlockId
  confirms : Nat

section Model

variable (E : Env D) (s : State D) (address : Address)

/-- The loop of `unspent_output_affects()`; `none` is `abort()`. -/
def unspentOutputAffectsFrom (tx : Tx D) : List Nat → Option Bool
  | [] => some false
  | i :: is =>
    if (txFindDoublespend s s.preferredChain none
        ⟨hashTx E.crypto tx, UInt16.ofNat i, 0⟩).isSome then unspentOutputAffectsFrom tx is
    else
      match findOutput E.crypto E.past tx (UInt16.ofNat i) with
      | none => none
      | some (addr, _) => if addr = address then some true else unspentOutputAffectsFrom tx is

/-- `unspent_output_affects()`. -/
def unspentOutputAffects (tx : Tx D) : Option Bool :=
  unspentOutputAffectsFrom E s address tx (List.range (numOutputs tx))

/-- The transaction is reported if it has such an output. -/
def appendTx (entry : Tx D → ListedTx D) (txs : List (ListedTx D)) (tx : Tx D) :
    Option (List (ListedTx D)) := do
  let affects ← unspentOutputAffects E s address tx
  if affects then some (txs ++ [entry tx]) else some txs

/-- The transactions that `add_existing_txs()` comes across in a block. -/
def existingTxs (b : BlockId) : List (Tx D) :=
  (List.range (s.blk b).numShards).flatMap fun shard =>
    (List.range (s.shardOf b shard).size).filterMap fun txoff => blockGetTx s b shard txoff

/-- Once a block is past the horizon, we can't spend it. -/
def pastHorizon (b : BlockId) : Bool :=
  (s.blk b).tailer.timestamp + protocolTxHorizonSecs true < s.now

/-- The loop of `add_existing_txs()` over the blocks. -/
def addExistingFrom : List BlockId → Nat → List (ListedTx D) → Option (List (ListedTx D))
  | [], _, txs => some txs
  | b :: bs, depth, txs =>
    if pastHorizon s b then some txs
    else do
      let txs ← (existingTxs s b).foldlM (appendTx E s address (⟨·, some b, depth⟩)) txs
      addExistingFrom bs (depth + 1) txs

/-- The preferred chain, from its tip back to the genesis block. -/
def preferredBlocks : List BlockId := blocksBack s s.numBlocks (some s.preferredChain)

/-- `add_existing_txs()`. The array is backwards, but is reported forwards. -/
def addExistingTxs : Option (List (ListedTx D)) :=
  (addExistingFrom E s address (preferredBlocks s) 1 []).map List.reverse

/-- The transactions that `add_pending_txs()` comes across. The number of shards is the order
here. -/
def searchedPending : List (Tx D) :=
  let numShards := (nextShardOrder (s.longestKnowns.headD 0)).toNat
  (List.range numShards).flatMap (fun shard => (s.pending.pend shard).map PendingTx.tx)
    ++ s.pending.unknownTx

/-- `add_pending_txs()`. -/
def addPendingTxs : Option (List (ListedTx D)) :=
  (searchedPending s).foldlM (appendTx E s address (⟨·, none, 0⟩)) []

-- ---------------------------------------------------------------------------
-- What can be spent
-- ---------------------------------------------------------------------------

/-- Output `i` is to the address. -/
def PaysTo (tx : Tx D) (i : Nat) : Prop :=
  (findOutput E.crypto E.past tx (UInt16.ofNat i)).map Prod.fst = some address

/-- A transaction that is known in a block of the preferred chain spends the output. -/
def SpentOnChain (tx : Tx D) (i : Nat) : Prop :=
  ∃ b ∈ preferredBlocks s, ∃ spender ∈ blockTxs s b, ∃ inp ∈ txInputs spender,
    inp.input = hashTx E.crypto tx ∧ inp.output = UInt16.ofNat i

/-- An output to the address has not been spent on the preferred chain. -/
def HasUnspent (tx : Tx D) : Prop :=
  ∃ i < numOutputs tx, PaysTo E address tx i ∧ ¬ SpentOnChain E s tx i

instance (tx : Tx D) : Decidable (HasUnspent E s address tx) := by
  unfold HasUnspent PaysTo SpentOnChain
  infer_instance

/-- The blocks of the preferred chain up to the horizon, with their confirmations. -/
def spendableBlocks : List (BlockId × Nat) :=
  ((preferredBlocks s).takeWhile fun b => !pastHorizon s b).zipIdx 1

/-- What can be spent of the chain: the oldest block first. -/
def spendableTxs : List (ListedTx D) :=
  ((spendableBlocks s).flatMap fun place =>
    ((blockTxs s place.1).filter fun tx => HasUnspent E s address tx).map
      (⟨·, some place.1, place.2⟩)).reverse

/-- All that can be spent is reported. -/
structure AllListed : Prop where
  existing : addExistingTxs E s address = some (spendableTxs E s address)
  pending : ∃ listed, addPendingTxs E s address = some listed ∧
    ∀ tx ∈ pendingTxs s.pending, HasUnspent E s address tx → ⟨tx, none, 0⟩ ∈ listed

/-- The tables name a spender of the output in a block of the chain, or in one after its tip. -/
def SpendRecorded (tx : Tx D) (i : Nat) : Prop :=
  ∃ ie ∈ s.inputhash, ie.tx = hashTx E.crypto tx ∧ ie.outputNum = UInt16.ofNat i ∧
    ∃ te ∈ s.txhash, te.sha = ie.usedBy ∧ ∃ y j k : Nat, te.loc = .inBlock y j k ∧
      shardIsTx (s.shardOf y j) k = true ∧
      (blockPreceeds s y s.preferredChain = true ∨ blockPreceeds s s.preferredChain y = true)

/-- Of an output to the address they name no spender. -/
def HasUnrecorded (tx : Tx D) : Prop :=
  ∃ i < numOutputs tx, PaysTo E address tx i ∧ ¬ SpendRecorded E s tx i

/-- For the known transactions up to the horizon the tables agree with the blocks; and so they
do for the pending ones that can be spent, and these are in the first two shards or have unknown
inputs. -/
structure TablesAgree : Prop where
  existing : ∀ place ∈ spendableBlocks s, ∀ tx ∈ blockTxs s place.1,
    HasUnrecorded E s address tx ↔ HasUnspent E s address tx
  pending : ∀ tx ∈ pendingTxs s.pending, HasUnspent E s address tx →
    HasUnrecorded E s address tx ∧ tx ∈ searchedPending s

end Model

-- ---------------------------------------------------------------------------
-- The lookup
-- ---------------------------------------------------------------------------

variable {E : Env D} {s : State D} {address : Address} {tx : Tx D} {i : Nat}

omit [Digest D] in
theorem txFindDoublespend_isSome {inp : Input D} {b : BlockId} :
    (txFindDoublespend s b none inp).isSome = true ↔
      ∃ ie ∈ inputhashVals s inp.input inp.output, ∃ te ∈ txhashVals s ie.usedBy,
        ∃ y j k : Nat, te.loc = .inBlock y j k ∧ shardIsTx (s.shardOf y j) k = true ∧
          (blockPreceeds s y b = true ∨ blockPreceeds s b y = true) := by
  rw [← Option.ne_none_iff_isSome, Ne, txFindDoublespend_eq_none]
  constructor
  · intro h
    by_contra hnone
    refine h fun ie hie te hte y j k hloc => .inr ?_
    by_cases htx : shardIsTx (s.shardOf y j) k = true
    · have hapart := fun hrel => hnone ⟨ie, hie, te, hte, y, j, k, hloc, htx, hrel⟩
      exact .inr ⟨Bool.eq_false_iff.mpr fun hy => hapart (.inl hy),
        Bool.eq_false_iff.mpr fun hb => hapart (.inr hb)⟩
    · exact .inl (Bool.eq_false_iff.mpr htx)
  · rintro ⟨ie, hie, te, hte, y, j, k, hloc, htx, hrel⟩ hnone
    rcases hnone ie hie te hte y j k hloc with hme | hhash | ⟨hy, hb⟩
    · cases hme
    · rw [htx] at hhash
      cases hhash
    · rcases hrel with hrel | hrel
      · rw [hy] at hrel
        cases hrel
      · rw [hb] at hrel
        cases hrel

/-- `tx_find_doublespend` finds what the tables name. -/
theorem spendRecorded_iff :
    SpendRecorded E s tx i ↔ (txFindDoublespend s s.preferredChain none
      ⟨hashTx E.crypto tx, UInt16.ofNat i, 0⟩).isSome = true := by
  rw [txFindDoublespend_isSome]
  constructor
  · rintro ⟨ie, hie, htx, hout, te, hte, hsha, hplace⟩
    exact ⟨ie, List.mem_filter.mpr ⟨hie, by simp [htx, hout]⟩, te,
      List.mem_filter.mpr ⟨hte, beq_iff_eq.mpr hsha⟩, hplace⟩
  · rintro ⟨ie, hie, te, hte, hplace⟩
    obtain ⟨hie, hkey⟩ := List.mem_filter.mp hie
    obtain ⟨hte, hsha⟩ := List.mem_filter.mp hte
    obtain ⟨htx, hout⟩ := Bool.and_eq_true_iff.mp hkey
    exact ⟨ie, hie, beq_iff_eq.mp htx, beq_iff_eq.mp hout, te, hte, beq_iff_eq.mp hsha, hplace⟩

instance : Decidable (SpendRecorded E s tx i) :=
  decidable_of_iff _ spendRecorded_iff.symm

instance : Decidable (PaysTo E address tx i) := inferInstanceAs (Decidable (_ = _))

instance : Decidable (HasUnrecorded E s address tx) := by
  unfold HasUnrecorded
  infer_instance

omit [Digest D] [DecidableEq D] in
/-- This must succeed, as the number is that of an output. -/
theorem exists_findOutput (hi : i < numOutputs tx) :
    ∃ addr amount, findOutput E.crypto E.past tx (UInt16.ofNat i) = some (addr, amount) := by
  cases tx with
  | normal t =>
    have hi : i < 2 := hi
    obtain rfl | rfl : i = 0 ∨ i = 1 := by omega
    · exact ⟨_, _, rfl⟩
    · exact ⟨_, _, rfl⟩
  | fromGateway t =>
    have hi : i < t.outputs.length := hi
    have hlt := t.numOutputs_lt
    have hnat : (UInt16.ofNat i).toNat = i :=
      UInt16.toNat_ofNat_of_lt' (show i < 2 ^ 16 by omega)
    unfold findOutput
    dsimp only
    rw [if_neg (by omega)]
    exact ⟨_, _, rfl⟩
  | toGateway t => exact absurd hi (Nat.not_lt_zero _)
  | claim t =>
    have hi : i < 1 := hi
    obtain rfl : i = 0 := by omega
    exact ⟨_, _, rfl⟩

/-- The loop looks for an output to the address that the tables name no spender of. -/
theorem unspentOutputAffectsFrom_eq {is : List Nat} (h : ∀ i ∈ is, i < numOutputs tx) :
    unspentOutputAffectsFrom E s address tx is =
      some (decide (∃ i ∈ is, PaysTo E address tx i ∧ ¬ SpendRecorded E s tx i)) := by
  induction is with
  | nil =>
    rw [decide_eq_false (by rintro ⟨i, hi, -⟩; exact absurd hi List.not_mem_nil)]
    rfl
  | cons i is ih =>
    obtain ⟨hi, his⟩ := List.forall_mem_cons.mp h
    obtain ⟨addr, amount, hout⟩ := exists_findOutput (E := E) hi
    have hpays : PaysTo E address tx i ↔ addr = address := by
      unfold PaysTo
      rw [hout, Option.map_some, Option.some_inj]
    unfold unspentOutputAffectsFrom
    by_cases hspent : SpendRecorded E s tx i
    · rw [if_pos (spendRecorded_iff.mp hspent), ih his]
      refine congrArg some (decide_eq_decide.mpr ?_)
      rw [List.exists_mem_cons_iff]
      exact ⟨.inr, fun hor => hor.resolve_left fun hboth => hboth.2 hspent⟩
    · rw [if_neg fun hsome => hspent (spendRecorded_iff.mpr hsome), hout]
      dsimp only
      by_cases haddr : addr = address
      · rw [if_pos haddr, decide_eq_true ⟨i, List.mem_cons_self, hpays.mpr haddr, hspent⟩]
      · rw [if_neg haddr, ih his]
        refine congrArg some (decide_eq_decide.mpr ?_)
        rw [List.exists_mem_cons_iff]
        exact ⟨.inr, fun hor => hor.resolve_left fun hboth => haddr (hpays.mp hboth.1)⟩

/-- `unspent_output_affects` never aborts. -/
theorem unspentOutputAffects_eq :
    unspentOutputAffects E s address tx = some (decide (HasUnrecorded E s address tx)) := by
  unfold unspentOutputAffects HasUnrecorded
  rw [unspentOutputAffectsFrom_eq fun i hi => List.mem_range.mp hi]
  refine congrArg some (decide_eq_decide.mpr ?_)
  simp only [List.mem_range]

-- ---------------------------------------------------------------------------
-- The lists
-- ---------------------------------------------------------------------------

/-- The transactions with such an output are appended. -/
theorem foldlM_appendTx (entry : Tx D → ListedTx D) (txs : List (Tx D)) (acc : List (ListedTx D)) :
    txs.foldlM (appendTx E s address entry) acc =
      some (acc ++ (txs.filter fun tx => HasUnrecorded E s address tx).map entry) := by
  induction txs generalizing acc with
  | nil => simp
  | cons tx txs ih =>
    rw [List.foldlM_cons, appendTx, unspentOutputAffects_eq, List.filter_cons]
    by_cases hhas : HasUnrecorded E s address tx
    · simp [hhas, ih]
    · simp [hhas, ih]

/-- The blocks up to the horizon, with the depth counted from `depth` on. -/
theorem addExistingFrom_eq (bs : List BlockId) (depth : Nat) (txs : List (ListedTx D)) :
    addExistingFrom E s address bs depth txs =
      some (txs ++ ((bs.takeWhile fun b => !pastHorizon s b).zipIdx depth).flatMap fun place =>
        ((existingTxs s place.1).filter fun tx => HasUnrecorded E s address tx).map
          (⟨·, some place.1, place.2⟩)) := by
  induction bs generalizing depth txs with
  | nil => simp [addExistingFrom]
  | cons b bs ih =>
    unfold addExistingFrom
    by_cases hpast : pastHorizon s b = true
    · rw [if_pos hpast, List.takeWhile_cons_of_neg (by rw [hpast]; decide)]
      simp
    · rw [if_neg hpast, foldlM_appendTx, List.takeWhile_cons_of_pos (by simpa using hpast),
        List.zipIdx_cons, List.flatMap_cons, ← List.append_assoc]
      exact ih _ _

/-- The sizes of the shards are those that the block says. -/
theorem existingTxs_eq (hl : Ledger E s) (b : BlockId) : existingTxs s b = blockTxs s b := by
  unfold existingTxs blockTxs
  simp only [hl.size b]
  rfl

/-- What is reported of the blocks at these places, for a test of transactions. -/
def listedAt (s : State D) (places : List (BlockId × Nat)) (p : Tx D → Bool) : List (ListedTx D) :=
  places.flatMap fun place => ((blockTxs s place.1).filter p).map (⟨·, some place.1, place.2⟩)

omit [Digest D] [DecidableEq D] in
theorem mem_listedAt {places : List (BlockId × Nat)} {p : Tx D → Bool} {b : BlockId} {d : Nat} :
    ⟨tx, some b, d⟩ ∈ listedAt s places p ↔
      (b, d) ∈ places ∧ tx ∈ blockTxs s b ∧ p tx = true := by
  unfold listedAt
  rw [List.mem_flatMap]
  constructor
  · rintro ⟨place, hplace, htx⟩
    obtain ⟨tx', htx', heq⟩ := List.mem_map.mp htx
    obtain ⟨rfl, hblock, rfl⟩ := ListedTx.mk.inj heq
    obtain rfl := Option.some.inj hblock
    exact ⟨hplace, List.mem_filter.mp htx'⟩
  · rintro ⟨hplace, htx, hp⟩
    exact ⟨(b, d), hplace, List.mem_map.mpr ⟨tx, List.mem_filter.mpr ⟨htx, hp⟩, rfl⟩⟩

omit [Digest D] [DecidableEq D] in
/-- The report tells what the test says of each transaction. -/
theorem listedAt_eq_iff {places : List (BlockId × Nat)} {p q : Tx D → Bool} :
    listedAt s places p = listedAt s places q ↔
      ∀ place ∈ places, ∀ tx ∈ blockTxs s place.1, p tx = q tx := by
  constructor
  · intro heq place hplace tx htx
    have hsame : p tx = true ↔ q tx = true := by
      have hlisted : (⟨tx, some place.1, place.2⟩ : ListedTx D) ∈ listedAt s places p ↔
          ⟨tx, some place.1, place.2⟩ ∈ listedAt s places q := by
        rw [heq]
      rw [mem_listedAt, mem_listedAt] at hlisted
      exact ⟨fun h => (hlisted.mp ⟨hplace, htx, h⟩).2.2,
        fun h => (hlisted.mpr ⟨hplace, htx, h⟩).2.2⟩
    exact Bool.eq_iff_iff.mpr hsame
  · intro hall
    unfold listedAt
    refine List.flatMap_congr fun place hplace => ?_
    rw [List.filter_congr (hall place hplace)]

theorem addExistingTxs_eq (hl : Ledger E s) :
    addExistingTxs E s address =
      some (listedAt s (spendableBlocks s) fun tx => HasUnrecorded E s address tx).reverse := by
  unfold addExistingTxs
  rw [addExistingFrom_eq, List.nil_append, Option.map_some]
  simp only [existingTxs_eq hl]
  rfl

theorem addPendingTxs_eq :
    addPendingTxs E s address =
      some (((searchedPending s).filter fun tx => HasUnrecorded E s address tx).map
        (⟨·, none, 0⟩)) := by
  unfold addPendingTxs
  rw [foldlM_appendTx, List.nil_append]

omit [Digest D] [DecidableEq D] in
theorem mem_map_pending {txs : List (Tx D)} :
    (⟨tx, none, 0⟩ : ListedTx D) ∈ txs.map (⟨·, none, 0⟩) ↔ tx ∈ txs := by
  constructor
  · intro h
    obtain ⟨tx', htx', heq⟩ := List.mem_map.mp h
    obtain ⟨rfl, -, -⟩ := ListedTx.mk.inj heq
    exact htx'
  · exact fun h => List.mem_map.mpr ⟨tx, h, rfl⟩

-- ---------------------------------------------------------------------------
-- Where the tables agree
-- ---------------------------------------------------------------------------

/-- What the tables name is a spender, in a block of the chain or after its tip. -/
theorem SpendRecorded.spent (hreach : NodeReach E s)
    (hC : Function.Injective E.crypto.doubleSha) (h : SpendRecorded E s tx i) :
    ∃ y : Nat, (blockPreceeds s y s.preferredChain = true ∨
        blockPreceeds s s.preferredChain y = true) ∧
      ∃ spender ∈ blockTxs s y, ∃ inp ∈ txInputs spender,
        inp.input = hashTx E.crypto tx ∧ inp.output = UInt16.ofNat i := by
  have hl := (ledgerOk_of_nodeReach hreach).toLedger
  obtain ⟨ie, hie, htx, hout, te, hte, hsha, y, j, k, hloc, histx, hrel⟩ := h
  obtain ⟨hy, e, hentry, hehash⟩ := hl.inBlock te hte y j k hloc
  obtain ⟨spender, hspender, inp, hinp, hinput, houtput⟩ := inputsRecorded_of_nodeReach hreach ie hie
  refine ⟨y, hrel, spender, ?_, inp, hinp, hinput.trans htx, houtput.trans hout⟩
  obtain ⟨proof, hproof⟩ := hl.proven y j k e hentry
  cases hslot : (s.shardOf y j).u k with
  | unknown =>
    rw [entryAt_eq_none.mpr hslot] at hentry
    cases hentry
  | hash e' =>
    unfold shardIsTx at histx
    rw [hslot] at histx
    cases histx
  | tx t refs =>
    rw [entryAt_tx hslot] at hentry
    obtain rfl := Option.some.inj hentry
    obtain rfl : spender = t := hashTx_injective hC (hspender.trans (hsha.symm.trans hehash.symm))
    obtain ⟨hshard, htxoff, -⟩ := checkProofByhash_eq_true.mp hproof.accepted
    refine mem_blockTxs.mpr ⟨j, hproof.shard ▸ hshard, k, ?_, ?_⟩
    · rw [← hproof.txoff, ← hproof.shard]
      exact htxoff
    · unfold txFor
      rw [hslot]

omit [Digest D] [DecidableEq D] in
/-- The walk back from a block meets its ancestors. -/
theorem mem_blocksBack (h : TreeOk s) {n a b : Nat} (hb : b < n) :
    a ∈ blocksBack s n (some b) ↔ Anc (prevOf s) a b := by
  induction n generalizing b with
  | zero => exact absurd hb (Nat.not_lt_zero b)
  | succ n ih =>
    unfold blocksBack
    rw [List.mem_cons, anc_iff_eq_or_parent]
    refine or_congr_right ?_
    cases hprev : prevOf s b with
    | none =>
      have hnil : blocksBack s n (s.blk b).prev = [] := by
        rw [show (s.blk b).prev = none from hprev]
        cases n <;> rfl
      rw [hnil]
      simp
    | some p =>
      have hlt := h.prev_lt b p hprev
      rw [show (s.blk b).prev = some p from hprev, ih (by omega)]
      simp

/-- `preferredBlocks` is the preferred chain. -/
theorem mem_preferredBlocks (hreach : NodeReach E s) (hfit : s.numBlocks ≤ depthLimit) {b : Nat} :
    b ∈ preferredBlocks s ↔ blockPreceeds s b s.preferredChain = true := by
  have hchain := (nodeOk_of_nodeReach hreach).chain hfit
  rw [blockPreceeds_iff hchain.tree]
  exact mem_blocksBack hchain.tree hchain.heads.preferred.best.1.1.1

/-- If no record of a spend was lost, and nothing is known in blocks after the tip, the tables
agree with the blocks. -/
theorem spendRecorded_iff_spentOnChain (hreach : NodeReach E s)
    (hfit : s.numBlocks ≤ depthLimit) (hC : Function.Injective E.crypto.doubleSha)
    (hkept : SpentOnChain E s tx i → SpendRecorded E s tx i)
    (hafter : ∀ y : Nat, blockPreceeds s s.preferredChain y = true → y ≠ s.preferredChain →
      blockTxs s y = []) :
    SpendRecorded E s tx i ↔ SpentOnChain E s tx i := by
  refine ⟨fun h => ?_, hkept⟩
  obtain ⟨y, hrel, spender, hspender, hspends⟩ := h.spent hreach hC
  have hbefore : blockPreceeds s y s.preferredChain = true := by
    refine hrel.elim id fun hlater => ?_
    by_cases hy : y = s.preferredChain
    · rw [hy] at hlater ⊢
      exact hlater
    · rw [hafter y hlater hy] at hspender
      exact absurd hspender List.not_mem_nil
  exact ⟨y, (mem_preferredBlocks hreach hfit).mpr hbefore, spender, hspender, hspends⟩

-- ---------------------------------------------------------------------------
-- What is listed
-- ---------------------------------------------------------------------------

/-- **`listtransactions` reports every payment that can be spent exactly if the tables agree with
the blocks and it searches where the payment is pending.** -/
theorem transactions_listed_iff (hreach : NodeReach E s) :
    AllListed E s address ↔ TablesAgree E s address := by
  have hl := (ledgerOk_of_nodeReach hreach).toLedger
  have hexisting : addExistingTxs E s address = some (spendableTxs E s address) ↔
      ∀ place ∈ spendableBlocks s, ∀ tx ∈ blockTxs s place.1,
        (HasUnrecorded E s address tx ↔ HasUnspent E s address tx) := by
    rw [addExistingTxs_eq hl, Option.some_inj]
    show _ = (listedAt s (spendableBlocks s) fun tx => HasUnspent E s address tx).reverse ↔ _
    rw [List.reverse_inj, listedAt_eq_iff]
    simp only [decide_eq_decide]
  have hpending : (∃ listed, addPendingTxs E s address = some listed ∧
        ∀ tx ∈ pendingTxs s.pending, HasUnspent E s address tx → ⟨tx, none, 0⟩ ∈ listed) ↔
      ∀ tx ∈ pendingTxs s.pending, HasUnspent E s address tx →
        HasUnrecorded E s address tx ∧ tx ∈ searchedPending s := by
    rw [addPendingTxs_eq]
    constructor
    · rintro ⟨listed, heq, hall⟩ tx htx hhas
      have hlisted := hall tx htx hhas
      rw [← Option.some.inj heq, mem_map_pending, List.mem_filter, decide_eq_true_eq] at hlisted
      exact hlisted.symm
    · intro hall
      refine ⟨_, rfl, fun tx htx hhas => ?_⟩
      rw [mem_map_pending, List.mem_filter, decide_eq_true_eq]
      exact (hall tx htx hhas).symm
  exact ⟨fun h => ⟨hexisting.mp h.existing, hpending.mp h.pending⟩,
    fun h => ⟨hexisting.mpr h.existing, hpending.mpr h.pending⟩⟩

/-- The address of the first key. -/
def sampleAddress : Address := idealCrypto.pubkeyToAddr (sampleKey 1)

/-- A node that has heard of a payment in the first block reports it. -/
theorem transactions_listed_first : ∃ s, NodeReach idealEnv s ∧
    (addExistingTxs idealEnv s sampleAddress).map (List.map ListedTx.tx) = some [samplePayment] ∧
    AllListed idealEnv s sampleAddress := by
  have hrun : (nodeRun idealEnv sampleNode sampleFirstEvents).toOption.any (fun s =>
      decide ((addExistingTxs idealEnv s sampleAddress).map (List.map ListedTx.tx) =
        some [samplePayment]) &&
      decide (∀ place ∈ spendableBlocks s, ∀ tx ∈ blockTxs s place.1,
        (HasUnrecorded idealEnv s sampleAddress tx ↔ HasUnspent idealEnv s sampleAddress tx)) &&
      (pendingTxs s.pending).isEmpty) = true := by
    decide +kernel
  obtain ⟨s, hs, hfacts⟩ := (Option.any_eq_true _ _).mp hrun
  have hreach := nodeReach_sampleNode.run (eq_ok_of_toOption hs)
  rw [Bool.and_eq_true, Bool.and_eq_true, decide_eq_true_eq, decide_eq_true_eq,
    List.isEmpty_iff] at hfacts
  obtain ⟨⟨hlisted, hexisting⟩, hempty⟩ := hfacts
  refine ⟨s, hreach, hlisted, (transactions_listed_iff hreach).mpr ⟨hexisting, fun tx htx _ => ?_⟩⟩
  rw [hempty] at htx
  exact absurd htx List.not_mem_nil

/-- An address in the third shard. -/
def farAddress : Address := ⟨0x80 :: List.replicate 19 0, rfl⟩

/-- A gateway pays 100 to it. -/
def farPayment : Tx IdealDigest :=
  .fromGateway
    { version := 1, paysFee := false, features := 0, gatewayKey := sampleKey 9, unused := 0
      signature := ⟨Bytes.zero 32, Bytes.zero 32⟩
      outputs := [⟨100, farAddress⟩], numOutputs_lt := by decide }

/-- The payment is pending in the third shard, and is not reported. -/
theorem pending_not_listed : ∃ s, NodeReach idealEnv s ∧
    (s.pending.pend 2).map PendingTx.tx = [farPayment] ∧
    HasUnspent idealEnv s farAddress farPayment ∧
    (addPendingTxs idealEnv s farAddress).map List.length = some 0 ∧
    ¬ AllListed idealEnv s farAddress := by
  have hrun : (nodeRun idealEnv sampleNode [.packet ⟨0, false⟩ (.tx farPayment)]).toOption.any
      (fun s => decide ((s.pending.pend 2).map PendingTx.tx = [farPayment]) &&
        decide (HasUnspent idealEnv s farAddress farPayment) &&
        decide (farPayment ∈ pendingTxs s.pending) &&
        decide ((addPendingTxs idealEnv s farAddress).map List.length = some 0)) = true := by
    decide +kernel
  obtain ⟨s, hs, hfacts⟩ := (Option.any_eq_true _ _).mp hrun
  simp only [Bool.and_eq_true, decide_eq_true_eq] at hfacts
  obtain ⟨⟨⟨hpend, hhas⟩, hmem⟩, hnone⟩ := hfacts
  refine ⟨s, nodeReach_sampleNode.run (eq_ok_of_toOption hs), hpend, hhas, hnone, fun h => ?_⟩
  obtain ⟨listed, hlisted, hall⟩ := h.pending
  have hin := hall farPayment hmem hhas
  rw [hlisted, Option.map_some, Option.some_inj, List.length_eq_zero_iff] at hnone
  rw [hnone] at hin
  exact absurd hin List.not_mem_nil

end Pettycoin
