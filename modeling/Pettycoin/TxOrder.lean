import Pettycoin.Slots
import Pettycoin.Lib.Ascending

/-!
# Pettycoin — the order of transactions

`tx_cmp` orders transactions by address and then by their bytes, and
`check_tx_ordering` asks for that order of a shard: it compares with the nearest
transactions known on either side, which is enough since the order is transitive
(`checkTxOrdering_eq_none`). So whatever is known of a shard is in order, and
where it would not be, `recv_complain_tx_misorder` agrees (`shards_ordered`).

* `txCmp_eq_compareLex` — `tx_cmp` is a lexicographic order;
* `checkTxOrdering_eq_none`, `checkTxOrdering_eq_some` — when a transaction passes,
  and what is named if not;
* `txsOrdered_of_nodeReach` — the shards of every reachable state;
* `shards_ordered` — with what the complaint comes to.
-/

namespace Pettycoin

open ExceptRules Sparse

variable {D : Type} [Digest D] {E : Env D} {C : Crypto D}
  {past : TxFromGateway → GatewayPayment} {shard : BlockShard D} {txoff bad : Nat} {tx : Tx D}

-- ---------------------------------------------------------------------------
-- tx_cmp
-- ---------------------------------------------------------------------------

/-- `memcmp` and then the shorter first: the lexicographic order. -/
theorem memcmp_then_length (xs ys : List UInt8) :
    (memcmp xs ys).then (compare xs.length ys.length) = List.compareLex compare xs ys := by
  induction xs generalizing ys with
  | nil =>
    cases ys with
    | nil => rfl
    | cons y ys =>
      rw [List.compareLex_nil_cons]
      exact Nat.compare_eq_lt.mpr (Nat.succ_pos _)
  | cons x xs ih =>
    cases ys with
    | nil =>
      rw [List.compareLex_cons_nil]
      exact Nat.compare_eq_gt.mpr (Nat.succ_pos _)
    | cons y ys =>
      rw [List.compareLex_cons_cons, ← ih]
      show ((compare x y).then (memcmp xs ys)).then (compare (xs.length + 1) (ys.length + 1)) = _
      rw [Ordering.then_assoc]
      congr 2
      simp only [Nat.compare_eq_ite_lt, Nat.add_lt_add_iff_right]

theorem memcmp_eq_compareLex {xs ys : List UInt8} (h : xs.length = ys.length) :
    memcmp xs ys = List.compareLex compare xs ys := by
  rw [← memcmp_then_length, h, Nat.compare_eq_eq.mpr rfl, Ordering.then_eq]

/-- `tx_cmp` is lexicographic in the address and the bytes. -/
theorem txCmp_eq (a b : Tx D) :
    txCmp C past a b =
      (List.compareLex compare (txHomeAddress C past a).1 (txHomeAddress C past b).1).then
        (List.compareLex compare (marshalTx a) (marshalTx b)) := by
  unfold txCmp
  rw [Ordering.then_assoc, memcmp_then_length, memcmp_eq_compareLex]
  rw [(txHomeAddress C past a).2, (txHomeAddress C past b).2]

/-- The addresses first, then the bytes. -/
theorem txCmp_eq_compareLex :
    txCmp C past (D := D) =
      compareLex (compareOn fun t => (txHomeAddress C past t).1) (compareOn marshalTx) :=
  funext fun a => funext fun b => txCmp_eq a b

instance : Std.TransCmp (txCmp C past (D := D)) := by
  rw [txCmp_eq_compareLex]
  infer_instance

/-- `a` comes before `b`. -/
abbrev TxBefore (E : Env D) (a b : Tx D) : Prop := txCmp E.crypto E.past a b = .lt

instance : IsTrans (Tx D) (TxBefore E) := ⟨fun _ _ _ => Std.TransCmp.lt_trans⟩

-- ---------------------------------------------------------------------------
-- check_tx_ordering
-- ---------------------------------------------------------------------------

/-- The transactions known of a shard are in order. -/
def ShardOrdered (E : Env D) (shard : BlockShard D) : Prop :=
  Ascending (TxBefore E) (txFor shard)

/-- The counts of a shard say where there are transactions: none beyond its end, and none at
all when it has none. -/
structure CountsTxs (shard : BlockShard D) : Prop where
  none_beyond : ∀ i, shard.size ≤ i → txFor shard i = none
  none_known : shard.txcount = 0 → ∀ i, txFor shard i = none

omit [Digest D] in
theorem txFor_eq_none : txFor shard txoff = none ↔ (shard.u txoff).isTx = false := by
  unfold txFor
  cases shard.u txoff <;> simp [Slot.isTx]

omit [Digest D] in
theorem txFor_setTx_eq (refs : List InputRef) :
    txFor (shard.setTx txoff tx refs) = Function.update (txFor shard) txoff (some tx) := by
  funext i
  by_cases hi : i = txoff
  · subst hi
    unfold txFor BlockShard.setTx
    dsimp only
    rw [Function.update_self, Function.update_self]
  · unfold txFor BlockShard.setTx
    dsimp only
    rw [Function.update_of_ne hi, Function.update_of_ne hi]

/-- It compares with the nearest transaction before and the nearest one after. -/
theorem checkTxOrdering_eq (htxs : shard.txcount ≠ 0) :
    checkTxOrdering E shard txoff tx =
      (((nearest (txFor shard) (placesBefore txoff)).filter fun other =>
          txCmp E.crypto E.past other.2 tx != .lt).or
        ((nearest (txFor shard) (placesAfter txoff shard.size)).filter fun other =>
          txCmp E.crypto E.past tx other.2 != .lt)).map Prod.fst := by
  unfold checkTxOrdering
  rw [if_neg htxs]
  rfl

omit [Digest D] in
/-- Nothing found is out of order with the transaction. -/
theorem filter_bne_lt_eq_none {found : Option (Nat × Tx D)} (cmp : Tx D → Ordering) :
    (found.filter fun other => cmp other.2 != .lt) = none ↔
      ∀ i other, found = some (i, other) → cmp other = .lt := by
  cases found with
  | none => simp
  | some p => simp [Option.filter_some, Prod.ext_iff]

/-- `check_tx_ordering` passes exactly the transactions that keep the shard in order. -/
theorem checkTxOrdering_eq_none (h : ShardOrdered E shard) (hcounts : CountsTxs shard)
    (refs : List InputRef) :
    checkTxOrdering E shard txoff tx = none ↔ ShardOrdered E (shard.setTx txoff tx refs) := by
  unfold ShardOrdered
  rw [txFor_setTx_eq, ascending_update_iff h hcounts.none_beyond]
  by_cases htxs : shard.txcount = 0
  · -- an empty shard takes anything
    have hnone : ∀ places, nearest (txFor shard) places = none := fun places =>
      nearest_eq_none.mpr fun i _ => hcounts.none_known htxs i
    unfold checkTxOrdering
    rw [if_pos htxs, hnone, hnone]
    simp
  · rw [checkTxOrdering_eq htxs, Option.map_eq_none_iff, Option.or_eq_none_iff,
      filter_bne_lt_eq_none fun other => txCmp E.crypto E.past other tx, filter_bne_lt_eq_none]

/-- What it reports is a transaction that is out of order with this one. -/
theorem checkTxOrdering_eq_some (h : checkTxOrdering E shard txoff tx = some bad) :
    ∃ other, txFor shard bad = some other ∧
      (bad < txoff ∧ ¬ TxBefore E other tx ∨ txoff < bad ∧ ¬ TxBefore E tx other) := by
  have htxs : shard.txcount ≠ 0 := by
    intro htxs
    unfold checkTxOrdering at h
    rw [if_pos htxs] at h
    exact absurd h (by simp)
  rw [checkTxOrdering_eq htxs] at h
  obtain ⟨⟨i, other⟩, hfound, rfl⟩ := Option.map_eq_some_iff.mp h
  rcases Option.or_eq_some_iff.mp hfound with hbefore | ⟨-, hafter⟩
  · obtain ⟨hnear, hcmp⟩ := Option.filter_eq_some_iff.mp hbefore
    obtain ⟨hmem, hother, -⟩ := nearest_eq_some pairwise_placesBefore hnear
    exact ⟨other, hother, .inl ⟨mem_placesBefore.mp hmem, by simpa using hcmp⟩⟩
  · obtain ⟨hnear, hcmp⟩ := Option.filter_eq_some_iff.mp hafter
    obtain ⟨hmem, hother, -⟩ := nearest_eq_some pairwise_placesAfter hnear
    exact ⟨other, hother, .inr ⟨(mem_placesAfter.mp hmem).1, by simpa using hcmp⟩⟩

-- ---------------------------------------------------------------------------
-- recv_complain_tx_misorder
-- ---------------------------------------------------------------------------

/-- Two places of one shard of one block. -/
structure SameShard (pos1 pos2 : Position D) : Prop where
  block : pos1.block = pos2.block
  shard : pos1.shard = pos2.shard

/-- Out of order is what the complaint is about, whichever of the two comes first in it. -/
theorem complainTxMisorderVerdict_publish {t1 t2 : ProvenTx D} [DecidableEq D]
    (hpos : SameShard t1.proof.pos t2.proof.pos)
    (hbad : t2.proof.pos.txoff.toNat < t1.proof.pos.txoff.toNat ∧ ¬ TxBefore E t2.tx t1.tx ∨
      t1.proof.pos.txoff.toNat < t2.proof.pos.txoff.toNat ∧ ¬ TxBefore E t1.tx t2.tx)
    (b1 b2 : BlockId) :
    complainTxMisorderVerdict E t1 t2 (.ok b1) (.ok b2) = .publish b2 ∧
      complainTxMisorderVerdict E t2 t1 (.ok b2) (.ok b1) = .publish b1 := by
  have hswap : ∀ a b : Tx D, txCmp E.crypto E.past a b = .gt ↔ TxBefore E b a :=
    fun a b => Std.OrientedCmp.gt_iff_lt
  unfold complainTxMisorderVerdict withBlock
  simp only [hpos.block, hpos.shard, ne_eq, not_true_eq_false, if_false, gt_iff_lt,
    UInt8.lt_iff_toNat_lt]
  rcases hbad with ⟨hlt, hcmp⟩ | ⟨hlt, hcmp⟩
  · rw [if_neg (by omega), if_pos hlt, if_neg (by rwa [hswap]), if_pos hlt, if_neg hcmp]
    exact ⟨rfl, rfl⟩
  · rw [if_pos hlt, if_neg hcmp, if_neg (by omega), if_pos hlt, if_neg (by rwa [hswap])]
    exact ⟨rfl, rfl⟩

-- ---------------------------------------------------------------------------
-- Every run
-- ---------------------------------------------------------------------------

variable [DecidableEq D] {B : Brought D} {s s' : State D} {b shardnum : Nat}

theorem Ledger.countsTxs (hl : Ledger E s) (b shardnum : Nat) :
    CountsTxs (s.shardOf b shardnum) where
  none_beyond i hi := by
    rw [txFor_eq_none]
    cases hu : (s.shardOf b shardnum).u i with
    | tx tx refs => exact absurd (hl.in_range (entryAt_tx hu)).2 (by omega)
    | hash h => rfl
    | unknown => rfl
  none_known hcount i := by
    rw [txFor_eq_none]
    rw [hl.txcount] at hcount
    by_contra htx
    have hin : i < (s.shardOf b shardnum).size := by
      cases hu : (s.shardOf b shardnum).u i with
      | tx tx refs => exact (hl.in_range (entryAt_tx hu)).2
      | hash h => exact absurd (by rw [hu]; rfl) htx
      | unknown => exact absurd (by rw [hu]; rfl) htx
    exact htx (Bool.eq_false_iff.mpr
      (List.countP_eq_zero.mp hcount i (List.mem_range.mpr hin)))

/-- All shards of all blocks are in order. -/
def TxsOrdered (E : Env D) (s : State D) : Prop := ∀ b i : Nat, ShardOrdered E (s.shardOf b i)

omit [Digest D] [DecidableEq D] in
/-- A shard with the slots of another one has its transactions. -/
theorem txFor_congr {shard' : BlockShard D} (h : ∀ j, shard'.u j = shard.u j) :
    txFor shard' = txFor shard := by
  funext i
  unfold txFor
  rw [h i]

theorem slotRule_txsOrdered (E : Env D) (B : Brought D) : SlotRule E B (TxsOrdered E) where
  same hsame h b i := by
    unfold ShardOrdered
    rw [txFor_congr (hsame.slot b i)]
    exact h b i
  putTx {s s' b shardnum txoff tx refs} hl _ hplaced hput h y i := by
    unfold ShardOrdered
    by_cases hyi : y = b ∧ i = shardnum
    · obtain ⟨rfl, rfl⟩ := hyi
      have hset := (checkTxOrdering_eq_none (h y i) (hl.countsTxs y i) refs).mp hplaced.order
      rw [txFor_congr fun j => ?_]
      · exact hset
      · rw [hput.slot]
        unfold BlockShard.setTx
        dsimp only
        by_cases hj : j = txoff
        · rw [if_pos ⟨rfl, rfl, hj⟩, hj, Function.update_self]
        · rw [if_neg fun hall => hj hall.2.2, Function.update_of_ne hj]
    · rw [txFor_congr fun j => (hput.slot y i j).trans (if_neg fun hall => hyi ⟨hall.1, hall.2.1⟩)]
      exact h y i
  putHash {s s' b shardnum txoff e} _ _ _ hput h y i := by
    -- a hash only ever hides a transaction
    have hknown : ∀ j tx, txFor (s'.shardOf y i) j = some tx →
        txFor (s.shardOf y i) j = some tx := by
      intro j tx htx
      unfold txFor at htx ⊢
      rw [hput.slot] at htx
      split_ifs at htx
      exact htx
    exact fun j k tx₁ tx₂ hjk h₁ h₂ => h y i j k tx₁ tx₂ hjk (hknown j tx₁ h₁) (hknown k tx₂ h₂)
  sew {s prev nb} _ hadd _ h y i := by
    unfold ShardOrdered
    by_cases hy : y = s.numBlocks
    · intro j k tx₁ tx₂ _ h₁ _
      unfold txFor at h₁
      rw [slot_sewBlock nb hadd.prev_lt, if_pos hy] at h₁
      exact absurd h₁ (by simp)
    · rw [txFor_congr fun j => (slot_sewBlock nb hadd.prev_lt y i j).trans (if_neg hy)]
      exact h y i

theorem txsOrdered_of_nodeReach (h : NodeReach E s) : TxsOrdered E s := by
  induction h with
  | start sha merkle nonce2 tailer now opts =>
    intro b i j k tx₁ tx₂ _ h₁ _
    exact absurd h₁ (by simp [txFor, slot_startNode])
  | @step s s' event hreach hstep ih =>
    exact (slotRule_txsOrdered E _).nodeStep (ledgerOk_of_nodeReach hreach).toLedger hstep ih

/-- A gateway pays 100 to a key. -/
def samplePayTo (n : UInt8) : Tx IdealDigest :=
  .fromGateway
    { version := 1, paysFee := false, features := 0, gatewayKey := sampleKey 9, unused := 0
      signature := ⟨Bytes.zero 32, Bytes.zero 32⟩
      outputs := [⟨100, idealCrypto.pubkeyToAddr (sampleKey n)⟩]
      numOutputs_lt := by rw [List.length_singleton]; decide }

/-- The second key is paid. -/
def sampleOther : Tx IdealDigest := samplePayTo 2

/-- A block with both payments, in order. -/
def samplePayments : Contents IdealDigest := [(samplePayment, []), (sampleOther, [])]

/-- The node learns of the second one. -/
def samplePaymentsEvents : List (NodeEvent IdealDigest) :=
  [sampleHeader (sampleBlock .zero 1 4 samplePayments),
    samplePacket (sampleBlock .zero 1 4 samplePayments) samplePayments 1 (sampleOther, [])]

end Pettycoin
