import Pettycoin.Accusations
import Pettycoin.NodeSteps

/-!
# Pettycoin — accusations of double spends

`recv_tx_doublespend` looks for the two transactions of a packet in the blocks
of one chain, and `recv_complain_doublespend` is shown where they are. Neither
asks whether the two are one: `block_preceeds` holds of a block and itself. So
a transaction is convicted of spending its own input again
(`doublespend_sound_iff`).

* `Ledger.nextSpends_spec` — what the search finds are places at which the two are
  known;
* `LedgerOk.callsJustified_iff` — when the complaints of a turn are about a double
  spend;
* `doublespend_unsound` — a transaction that is held against itself;
* `doublespend_sound_iff` — which accusations are sound, over both ways in.
-/

namespace Pettycoin

open ExceptRules

variable {D : Type} [Digest D] [DecidableEq D] {E : Env D} {s s' : State D}

-- ---------------------------------------------------------------------------
-- Two transactions, one output
-- ---------------------------------------------------------------------------

/-- Where a side of an accusation says its transaction is. -/
def SpendAt.place (side : SpendAt D) : BlockId × Nat × Nat :=
  (side.block, side.shardnum, side.txoff)

/-- The side's transaction is known to be where it says. -/
def SpendAt.Held (C : Crypto D) (s : State D) (side : SpendAt D) : Prop :=
  ∃ h, entryAt C s side.block side.shardnum side.txoff = some h ∧ h.txhash = hashTx C side.tx

/-- Two inputs spend the same output. -/
def SameSpend (tx tx' : Tx D) (input input' : Nat) : Prop :=
  ∃ inp inp', txInput tx input = some inp ∧ txInput tx' input' = some inp' ∧
    sameOutput inp inp' = true

/-- Two different transactions, at two different places of one chain, spend the same
output. -/
structure SpendsTwice (C : Crypto D) (s : State D) (one two : SpendAt D) : Prop where
  txs : one.tx ≠ two.tx
  places : one.place ≠ two.place
  heldOne : one.Held C s
  heldTwo : two.Held C s
  chain : Forest.Anc (prevOf s) one.block two.block
  spend : SameSpend one.tx two.tx one.input two.input

-- ---------------------------------------------------------------------------
-- The loop
-- ---------------------------------------------------------------------------

/-- The states in which a turn of the loop of `recv_tx_doublespend` begins. -/
inductive LoopState (E : Env D) (s : State D) (pkt : PktTxDoublespend D) : State D → Prop
  | start {s₁ : State D} : checkPktTxDoublespend E.crypto s pkt = .none →
    dropBoth E s pkt = .ok s₁ → LoopState E s pkt s₁
  | again {s₁ s₂ : State D} {one two : Spend D} : LoopState E s pkt s₁ →
    doublespendCall E.crypto s₁ pkt = .ok (some (one, two)) →
    complainDoublespend E s₁ one two = .ok s₂ → LoopState E s pkt s₂

/-- Every call of `complain_doublespend` is about two transactions that spend the same
output. -/
def CallsJustified (E : Env D) (s : State D) (pkt : PktTxDoublespend D) : Prop :=
  ∀ s' call one two, LoopState E s pkt s' → doublespendCall E.crypto s' pkt = .ok (some call) →
    nextSpends E.crypto s' pkt = some (one, two) → SpendsTwice E.crypto s' one two

/-- The packet is refused, names two transactions of different hashes, or one that is
in no block, or the node stops when it drops them from pending. -/
def NamesTwo (E : Env D) (s : State D) (pkt : PktTxDoublespend D) : Prop :=
  checkPktTxDoublespend E.crypto s pkt ≠ .none ∨
  hashTx E.crypto pkt.txA ≠ hashTx E.crypto pkt.txB ∨
  (∀ te ∈ txhashVals s (hashTx E.crypto pkt.txA), te.isInBlock = false) ∨
  ∃ e, dropBoth E s pkt = .error e

theorem dropPendingTx_txhash {tx : Tx D} (h : dropPendingTx E s tx = .ok s') :
    s'.txhash = s.txhash := by
  unfold dropPendingTx at h
  dsimp only at h
  split_ifs at h
  · injection h with h
    rw [← h]
  · injection h with h
    rw [← h]
    rfl
  · injection h with h
    rw [← h]
    rfl

theorem dropBoth_txhash {pkt : PktTxDoublespend D} (h : dropBoth E s pkt = .ok s') :
    s'.txhash = s.txhash := by
  unfold dropBoth at h
  obtain ⟨s₁, hfirst, hsecond⟩ := of_bind_eq_ok h
  rw [dropPendingTx_txhash hsecond, dropPendingTx_txhash hfirst]

/-- The loop only complains. -/
theorem LoopState.frame {pkt : PktTxDoublespend D} (h : LoopState E s pkt s') : Frame E s s' := by
  induction h with
  | start _ hdrop => exact (dropBoth_frame (Frame.refl E s) pkt).of_ok hdrop
  | again _ _ hcomplain ih => exact (complainDoublespend_frame ih _ _).of_ok hcomplain

/-- It begins when the packet passed, and both were dropped from pending. -/
theorem LoopState.started {pkt : PktTxDoublespend D} (h : LoopState E s pkt s') :
    checkPktTxDoublespend E.crypto s pkt = .none ∧ ∃ s₁, dropBoth E s pkt = .ok s₁ := by
  induction h with
  | start hcheck hdrop => exact ⟨hcheck, _, hdrop⟩
  | again _ _ _ ih => exact ih

/-- A packet that passes names inputs that spend the same output. -/
theorem sameSpend_of_checked {pkt : PktTxDoublespend D}
    (h : checkPktTxDoublespend E.crypto s pkt = .none) :
    SameSpend pkt.txA pkt.txB pkt.input1 pkt.input2 := by
  unfold checkPktTxDoublespend at h
  split at h
  · split at h
    · exact absurd h (by decide)
    · rename_i inpA hA
      split at h
      · split at h
        · exact absurd h (by decide)
        · rename_i inpB hB
          split_ifs at h with hsame
          exact ⟨inpA, inpB, hA, hB, hsame⟩
      · rename_i hne
        exact absurd h hne
  · rename_i hne
    exact absurd h hne

omit [Digest D] [DecidableEq D] in
theorem SameSpend.symm [DecidableEq D] {tx tx' : Tx D} {input input' : Nat}
    (h : SameSpend tx tx' input input') : SameSpend tx' tx input' input := by
  obtain ⟨inp, inp', hinp, hinp', hsame⟩ := h
  refine ⟨inp', inp, hinp', hinp, ?_⟩
  unfold sameOutput at hsame ⊢
  simp only [Bool.and_eq_true, beq_iff_eq] at hsame ⊢
  exact ⟨hsame.1.symm, hsame.2.symm⟩

/-- The two sides that the loop finds are of places that `txhash` names. -/
theorem nextSpends_named {pkt : PktTxDoublespend D} {one two : SpendAt D}
    (h : nextSpends E.crypto s pkt = some (one, two)) :
    ∃ te ∈ s.txhash, te.sha = hashTx E.crypto pkt.txA ∧ te.isInBlock = true := by
  unfold nextSpends at h
  obtain ⟨teA, hA, h⟩ := List.exists_of_findSome?_eq_some h
  obtain ⟨teB, -, h⟩ := List.exists_of_findSome?_eq_some h
  obtain ⟨hmem, hsha⟩ := List.mem_filter.mp hA
  refine ⟨teA, hmem, beq_iff_eq.mp hsha, ?_⟩
  unfold TxhashElem.isInBlock
  cases hloc : teA.loc with
  | inBlock b i j => rfl
  | pending tx =>
    unfold spendSides at h
    rw [hloc] at h
    exact absurd h (by simp)

/-- The two sides that the loop finds are where they say, and on one chain. -/
theorem Ledger.nextSpends_spec (hl : Ledger E s) {pkt : PktTxDoublespend D} {one two : SpendAt D}
    (h : nextSpends E.crypto s pkt = some (one, two)) :
    one.Held E.crypto s ∧ two.Held E.crypto s ∧ Forest.Anc (prevOf s) one.block two.block ∧
      ((one.tx = pkt.txA ∧ one.input = pkt.input1 ∧ two.tx = pkt.txB ∧ two.input = pkt.input2) ∨
        (one.tx = pkt.txB ∧ one.input = pkt.input2 ∧ two.tx = pkt.txA ∧
          two.input = pkt.input1)) := by
  unfold nextSpends at h
  obtain ⟨teA, hA, h⟩ := List.exists_of_findSome?_eq_some h
  obtain ⟨teB, hB, h⟩ := List.exists_of_findSome?_eq_some h
  obtain ⟨hmemA, hshaA⟩ := List.mem_filter.mp hA
  obtain ⟨hmemB, hshaB⟩ := List.mem_filter.mp hB
  unfold spendSides at h
  split at h
  · rename_i ba ia ja bb ib jb hlocA hlocB
    obtain ⟨-, hA', hentryA, hhashA⟩ := hl.inBlock teA hmemA ba ia ja hlocA
    obtain ⟨-, hB', hentryB, hhashB⟩ := hl.inBlock teB hmemB bb ib jb hlocB
    have hheldA : ∃ h, entryAt E.crypto s ba ia ja = some h ∧
        h.txhash = hashTx E.crypto pkt.txA := ⟨hA', hentryA, hhashA.trans (beq_iff_eq.mp hshaA)⟩
    have hheldB : ∃ h, entryAt E.crypto s bb ib jb = some h ∧
        h.txhash = hashTx E.crypto pkt.txB := ⟨hB', hentryB, hhashB.trans (beq_iff_eq.mp hshaB)⟩
    dsimp only at h
    split_ifs at h with hab hba
    · injection h with h
      obtain ⟨rfl, rfl⟩ := Prod.mk.inj h
      exact ⟨hheldA, hheldB, anc_of_blockPreceeds hab, Or.inl ⟨rfl, rfl, rfl, rfl⟩⟩
    · injection h with h
      obtain ⟨rfl, rfl⟩ := Prod.mk.inj h
      exact ⟨hheldB, hheldA, anc_of_blockPreceeds hba, Or.inr ⟨rfl, rfl, rfl, rfl⟩⟩
  · exact absurd h (by simp)

/-- Two transactions of different hashes are where they say: a real double spend. -/
theorem Ledger.spendsTwice (hl : Ledger E s') {pkt : PktTxDoublespend D}
    (hcheck : checkPktTxDoublespend E.crypto s pkt = .none)
    (hne : hashTx E.crypto pkt.txA ≠ hashTx E.crypto pkt.txB) {one two : SpendAt D}
    (h : nextSpends E.crypto s' pkt = some (one, two)) : SpendsTwice E.crypto s' one two := by
  obtain ⟨hone, htwo, hchain, hsides⟩ := hl.nextSpends_spec h
  have hsame := sameSpend_of_checked hcheck
  have hhash : hashTx E.crypto one.tx ≠ hashTx E.crypto two.tx := by
    rcases hsides with ⟨h1, -, h2, -⟩ | ⟨h1, -, h2, -⟩
    · rwa [h1, h2]
    · rw [h1, h2]
      exact hne.symm
  refine ⟨fun htx => hhash (by rw [htx]), fun hplace => hhash ?_, hone, htwo, hchain, ?_⟩
  · obtain ⟨h1, hentry1, hhash1⟩ := hone
    obtain ⟨h2, hentry2, hhash2⟩ := htwo
    obtain ⟨hblock, hshard, hoff⟩ : one.block = two.block ∧ one.shardnum = two.shardnum ∧
        one.txoff = two.txoff := by
      simpa [SpendAt.place] using hplace
    rw [hblock, hshard, hoff, hentry2] at hentry1
    rw [← hhash1, ← hhash2, Option.some.inj hentry1]
  · rcases hsides with ⟨h1, hi1, h2, hi2⟩ | ⟨h1, hi1, h2, hi2⟩
    · rwa [h1, h2, hi1, hi2]
    · rw [h1, h2, hi1, hi2]
      exact hsame.symm

-- The same transaction twice
-- --------------------------

omit [Digest D] [DecidableEq D] in
/-- A search finds nothing before the first candidate. -/
theorem findSome?_eq_of_find? {α β : Type} {l : List α} {p : α → Bool} {f : α → Option β} {a : α}
    (hf : ∀ x, p x = false → f x = none) (h : l.find? p = some a) (ha : (f a).isSome) :
    l.findSome? f = f a := by
  induction l with
  | nil => exact absurd h (by simp)
  | cons x l ih =>
    rw [List.find?_cons] at h
    rw [List.findSome?_cons]
    cases hx : p x with
    | true =>
      rw [hx] at h
      obtain rfl := Option.some.inj h
      obtain ⟨b, hb⟩ := Option.isSome_iff_exists.mp ha
      rw [hb]
    | false =>
      rw [hx] at h
      rw [hf x hx]
      exact ih h

/-- When both have one hash, the first place found is set against itself. -/
theorem nextSpends_self {pkt : PktTxDoublespend D}
    (hsame : hashTx E.crypto pkt.txA = hashTx E.crypto pkt.txB) {te : TxhashElem D}
    (hte : te ∈ txhashVals s (hashTx E.crypto pkt.txA)) (hin : te.isInBlock = true) :
    ∃ one two, nextSpends E.crypto s pkt = some (one, two) ∧ one.place = two.place ∧
      ∃ te ∈ s.txhash, te.loc = .inBlock one.block one.shardnum one.txoff := by
  obtain ⟨first, hfirst⟩ := Option.isSome_iff_exists.mp
    (List.find?_isSome.mpr ⟨te, hte, hin⟩ : (List.find? TxhashElem.isInBlock _).isSome)
  have hmem := List.mem_of_find?_eq_some hfirst
  have hinBlock := List.find?_some hfirst
  have hpending : ∀ te : TxhashElem D, te.isInBlock = false → ∃ tx, te.loc = .pending tx := by
    intro te hte
    unfold TxhashElem.isInBlock at hte
    cases hloc : te.loc with
    | inBlock b i j =>
      rw [hloc] at hte
      exact absurd hte (by simp)
    | pending tx => exact ⟨tx, rfl⟩
  obtain ⟨b, i, j, hloc⟩ : ∃ b i j, first.loc = .inBlock b i j := by
    cases hloc : first.loc with
    | inBlock b i j => exact ⟨b, i, j, rfl⟩
    | pending tx =>
      unfold TxhashElem.isInBlock at hinBlock
      rw [hloc] at hinBlock
      exact absurd hinBlock (by simp)
  have hpre : blockPreceeds s b b = true := by
    unfold blockPreceeds
    cases (s.blk b).depth <;> simp [blockPreceedsFrom]
  have hsides : spendSides s pkt first first
      = some (⟨b, i, j, pkt.input1, pkt.txA⟩, ⟨b, i, j, pkt.input2, pkt.txB⟩) := by
    unfold spendSides
    rw [hloc]
    simp [hpre]
  have hinner : (txhashVals s (hashTx E.crypto pkt.txB)).findSome? (spendSides s pkt first)
      = some (⟨b, i, j, pkt.input1, pkt.txA⟩, ⟨b, i, j, pkt.input2, pkt.txB⟩) := by
    rw [← hsides]
    refine findSome?_eq_of_find? (fun x hx => ?_) (hsame ▸ hfirst) (by rw [hsides]; rfl)
    obtain ⟨tx, htx⟩ := hpending x hx
    unfold spendSides
    rw [htx, hloc]
  refine ⟨⟨b, i, j, pkt.input1, pkt.txA⟩, ⟨b, i, j, pkt.input2, pkt.txB⟩, ?_, rfl, first,
    (List.mem_filter.mp hmem).1, hloc⟩
  unfold nextSpends
  rw [findSome?_eq_of_find? (fun x hx => ?_) hfirst (by rw [hinner]; rfl), hinner]
  obtain ⟨tx, htx⟩ := hpending x hx
  refine List.findSome?_eq_none_iff.mpr fun y _ => ?_
  unfold spendSides
  rw [htx]

/-- `create_proof` succeeds for what `txhash` names, so that the call is made. -/
theorem LedgerOk.doublespendCall_ok (hl : LedgerOk E s) {pkt : PktTxDoublespend D}
    {one two : SpendAt D} (h : nextSpends E.crypto s pkt = some (one, two)) :
    ∃ call, doublespendCall E.crypto s pkt = .ok (some call) := by
  obtain ⟨⟨h1, hentry1, -⟩, ⟨h2, hentry2, -⟩, -⟩ := hl.toLedger.nextSpends_spec h
  obtain ⟨proof1, hproof1⟩ := hl.createProof_ok hentry1
  obtain ⟨proof2, hproof2⟩ := hl.createProof_ok hentry2
  unfold doublespendCall
  rw [h]
  dsimp only
  unfold spendOf
  rw [hproof1, hproof2]
  exact ⟨_, rfl⟩

/-- The calls of `complain_doublespend` are justified exactly when the packet names
two transactions. -/
theorem LedgerOk.callsJustified_iff (hl : LedgerOk E s) (pkt : PktTxDoublespend D) :
    CallsJustified E s pkt ↔ NamesTwo E s pkt := by
  constructor
  · intro hjust
    by_contra hone
    unfold NamesTwo at hone
    simp only [not_or, not_not, not_exists, not_forall] at hone
    obtain ⟨hcheck, hsame, ⟨te, hte, hin⟩, hok⟩ := hone
    cases hdrop : dropBoth E s pkt with
    | error e => exact hok e hdrop
    | ok s₁ =>
      have hte₁ : te ∈ txhashVals s₁ (hashTx E.crypto pkt.txA) := by
        unfold txhashVals at hte ⊢
        rwa [dropBoth_txhash hdrop]
      obtain ⟨one, two, hnext, hplace, -⟩ := nextSpends_self hsame hte₁ (eq_true_of_ne_false hin)
      have hloop := LoopState.start hcheck hdrop
      obtain ⟨call, hcall⟩ := (hl.frame hloop.frame).doublespendCall_ok hnext
      exact (hjust s₁ call one two hloop hcall hnext).places hplace
  · rintro hnames s' call one two hloop hcall hnext
    obtain ⟨hcheck, s₁, hdrop⟩ := hloop.started
    rcases hnames with hne | hne | hnone | ⟨e, hstop⟩
    · exact absurd hcheck hne
    · exact (hl.toLedger.frame hloop.frame).spendsTwice hcheck hne hnext
    · -- what is in a block now was in one when the packet came
      obtain ⟨te, hte, hsha, hin⟩ := nextSpends_named hnext
      rcases hloop.frame.txhash te hte with hold | ⟨tx, rfl⟩
      · have hfalse := hnone te (List.mem_filter.mpr ⟨hold, beq_iff_eq.mpr hsha⟩)
        rw [hin] at hfalse
        exact absurd hfalse (by simp)
      · exact absurd hin (by simp [TxhashElem.isInBlock])
    · rw [hdrop] at hstop
      exact absurd hstop (by simp)

-- ---------------------------------------------------------------------------
-- The complaint
-- ---------------------------------------------------------------------------

/-- Where a proof says its transaction is. -/
def Proof.place (proof : Proof D) : D × UInt16 × UInt8 :=
  (proof.pos.block, proof.pos.shard, proof.pos.txoff)

/-- What `recv_complain_doublespend` is satisfied with: two proofs, at or after one
another, of transactions that spend the same output. -/
structure DoublespendShown (C : Crypto D) (s : State D) (input1 input2 : Nat)
    (t1 t2 : ProvenTx D) (b1 b2 : Nat) : Prop where
  block1 : provenTxBlock C s t1 = .ok b1
  block2 : provenTxBlock C s t2 = .ok b2
  spend : SameSpend t1.tx t2.tx input1 input2
  order : blockPreceeds s b1 b2 = true

/-- Two different transactions, proven at two different places of one chain, spend the
same output. -/
structure ProvenTwice (C : Crypto D) (s : State D) (input1 input2 : Nat) (t1 t2 : ProvenTx D)
    (b : Nat) : Prop where
  txs : t1.tx ≠ t2.tx
  places : t1.proof.place ≠ t2.proof.place
  chain : ∃ b1, t1.Held C s b1 ∧ t2.Held C s b ∧ Forest.Anc (prevOf s) b1 b
  spend : SameSpend t1.tx t2.tx input1 input2

/-- When a double spend is published. -/
theorem complainDoublespendVerdict_eq_publish {C : Crypto D} {input1 input2 : Nat}
    {t1 t2 : ProvenTx D} {b : Nat} :
    complainDoublespendVerdict s input1 input2 t1 t2 (provenTxBlock C s t1) (provenTxBlock C s t2)
        = .publish b ↔
      ∃ b1, DoublespendShown C s input1 input2 t1 t2 b1 b := by
  unfold complainDoublespendVerdict
  rw [withBlock_eq_publish]
  constructor
  · rintro ⟨b1, h1, h⟩
    split at h
    · exact absurd h (by simp)
    · rename_i inp1 hinp1
      obtain ⟨b2, h2, h⟩ := withBlock_eq_publish.mp h
      split at h
      · exact absurd h (by simp)
      · rename_i inp2 hinp2
        split_ifs at h with hsame hpre
        injection h with h
        subst h
        exact ⟨b1, h1, h2, ⟨inp1, inp2, hinp1, hinp2, by simpa using hsame⟩, by simpa using hpre⟩
  · rintro ⟨b1, h1, h2, ⟨inp1, inp2, hinp1, hinp2, hsame⟩, hpre⟩
    refine ⟨b1, h1, ?_⟩
    rw [hinp1]
    refine withBlock_eq_publish.mpr ⟨b, h2, ?_⟩
    rw [hinp2]
    simp [hsame, hpre]

/-- The transaction and the place of the two sides differ, where the packet shows what
it should. -/
def ShowsTwo (C : Crypto D) (s : State D) (input1 input2 : Nat) (t1 t2 : ProvenTx D) : Prop :=
  ∀ b1 b2, DoublespendShown C s input1 input2 t1 t2 b1 b2 →
    t1.tx ≠ t2.tx ∧ t1.proof.place ≠ t2.proof.place

/-- Only a real double spend is published. -/
def PublishJustified (C : Crypto D) (s : State D) (input1 input2 : Nat) (t1 t2 : ProvenTx D) :
    Prop :=
  ∀ b, complainDoublespendVerdict s input1 input2 t1 t2 (provenTxBlock C s t1)
      (provenTxBlock C s t2) = .publish b → ProvenTwice C s input1 input2 t1 t2 b

theorem publishJustified_iff {C : Crypto D} {input1 input2 : Nat} {t1 t2 : ProvenTx D} :
    PublishJustified C s input1 input2 t1 t2 ↔ ShowsTwo C s input1 input2 t1 t2 := by
  constructor
  · intro hjust b1 b2 hshown
    have htwice := hjust b2 (complainDoublespendVerdict_eq_publish.mpr ⟨b1, hshown⟩)
    exact ⟨htwice.txs, htwice.places⟩
  · intro htwo b hpublish
    obtain ⟨b1, hshown⟩ := complainDoublespendVerdict_eq_publish.mp hpublish
    obtain ⟨htxs, hplaces⟩ := htwo b1 b hshown
    exact ⟨htxs, hplaces, ⟨b1, provenTxBlock_ok hshown.block1, provenTxBlock_ok hshown.block2,
      anc_of_blockPreceeds hshown.order⟩, hshown.spend⟩

-- ---------------------------------------------------------------------------
-- The result
-- ---------------------------------------------------------------------------

/-- A block that holds one transaction, with a ref to itself. -/
def sampleAlone : Contents IdealDigest := [(sampleOnce, [⟨0, 0, 0, 0⟩])]

/-- The block, its transaction, and the accusation that names it twice. -/
def sampleAccusation : List (NodeEvent IdealDigest) :=
  [sampleHeader (sampleBlock .zero 1 4 sampleAlone),
    samplePacket (sampleBlock .zero 1 4 sampleAlone) sampleAlone 0 (sampleOnce, [⟨0, 0, 0, 0⟩]),
    .packet ⟨1, false⟩ (.txDoublespend ⟨0, 0, sampleOnce, sampleOnce⟩)]

/-- **Double-spend accusations.** `recv_tx_doublespend` complains of real double spends
only, as long as the packet does not name one transaction that is in a block
twice, and `recv_complain_doublespend` as long as what it is shown is of two
transactions at two places. -/
theorem doublespend_sound_iff (hreach : NodeReach E s) (pkt : PktTxDoublespend D)
    (input1 input2 : Nat) (t1 t2 : ProvenTx D) :
    (CallsJustified E s pkt ↔ NamesTwo E s pkt) ∧
    (PublishJustified E.crypto s input1 input2 t1 t2 ↔ ShowsTwo E.crypto s input1 input2 t1 t2) :=
  ⟨(ledgerOk_of_nodeReach hreach).callsJustified_iff pkt, publishJustified_iff⟩

/-- A block that holds two transactions that spend the same payment. -/
def sampleRivals : Contents IdealDigest :=
  [(sampleOnce, [⟨0, 0, 0, 0⟩]), (sampleFee, [⟨0, 0, 1, 0⟩])]

/-- The block and both of its transactions. -/
def sampleRivalry : List (NodeEvent IdealDigest) :=
  [sampleHeader (sampleBlock .zero 1 4 sampleRivals),
    samplePacket (sampleBlock .zero 1 4 sampleRivals) sampleRivals 0 (sampleOnce, [⟨0, 0, 0, 0⟩]),
    samplePacket (sampleBlock .zero 1 4 sampleRivals) sampleRivals 1 (sampleFee, [⟨0, 0, 1, 0⟩])]

/-- The accusation, and what proves it. -/
def sampleRivalSpends : PktTxDoublespend IdealDigest := ⟨0, 0, sampleOnce, sampleFee⟩

def sampleRivalProof (txoff : Nat) (tx : Tx IdealDigest) (refs : List InputRef) :
    ProvenTx IdealDigest :=
  ⟨proofOf idealCrypto (hashBlock idealCrypto (sampleBlock .zero 1 4 sampleRivals)) 0 sampleRivals
    txoff, tx, refs⟩

/-- A node knows a block that spends one payment twice: told of the two transactions it
complains of the block, shown them it publishes the complaint, and both are justified. -/
theorem doublespend_sound_iff_two :
    ∃ s s' call, NodeReach idealEnv s ∧ (s.blk 1).complaint = none ∧
      doublespendCall idealCrypto s sampleRivalSpends = .ok (some call) ∧
      nodeStep idealEnv s (.packet ⟨1, false⟩ (.txDoublespend sampleRivalSpends)) = .ok s' ∧
      (s'.blk 1).complaint.isSome ∧ CallsJustified idealEnv s sampleRivalSpends ∧
      complainDoublespendVerdict s 0 0 (sampleRivalProof 0 sampleOnce [⟨0, 0, 0, 0⟩])
          (sampleRivalProof 1 sampleFee [⟨0, 0, 1, 0⟩])
          (provenTxBlock idealCrypto s (sampleRivalProof 0 sampleOnce [⟨0, 0, 0, 0⟩]))
          (provenTxBlock idealCrypto s (sampleRivalProof 1 sampleFee [⟨0, 0, 1, 0⟩]))
        = .publish 1 ∧
      PublishJustified idealCrypto s 0 0 (sampleRivalProof 0 sampleOnce [⟨0, 0, 0, 0⟩])
        (sampleRivalProof 1 sampleFee [⟨0, 0, 1, 0⟩]) := by
  have hrun : (nodeRun idealEnv sampleNode sampleRivalry >>= fun s => do
      let call ← doublespendCall idealCrypto s sampleRivalSpends
      let s' ← nodeStep idealEnv s (.packet ⟨1, false⟩ (.txDoublespend sampleRivalSpends))
      .ok ((s.blk 1).complaint.isNone, call.isSome, (s'.blk 1).complaint.isSome,
        decide (complainDoublespendVerdict s 0 0 (sampleRivalProof 0 sampleOnce [⟨0, 0, 0, 0⟩])
          (sampleRivalProof 1 sampleFee [⟨0, 0, 1, 0⟩])
          (provenTxBlock idealCrypto s (sampleRivalProof 0 sampleOnce [⟨0, 0, 0, 0⟩]))
          (provenTxBlock idealCrypto s (sampleRivalProof 1 sampleFee [⟨0, 0, 1, 0⟩]))
            = .publish 1))) = .ok (true, true, true, true) := by
    decide +kernel
  obtain ⟨s, hs, hrest⟩ := of_bind_eq_ok hrun
  obtain ⟨call, hcall, hrest⟩ := of_bind_eq_ok hrest
  obtain ⟨s', hs', hchecks⟩ := of_bind_eq_ok hrest
  injection hchecks with hchecks
  simp only [Prod.mk.injEq, decide_eq_true_eq, Option.isNone_iff_eq_none] at hchecks
  obtain ⟨hclean, hsome, hcomplaint, hpublish⟩ := hchecks
  obtain ⟨one, rfl⟩ := Option.isSome_iff_exists.mp hsome
  have hreach := nodeReach_sampleNode.run hs
  have hsound := doublespend_sound_iff hreach sampleRivalSpends 0 0
    (sampleRivalProof 0 sampleOnce [⟨0, 0, 0, 0⟩]) (sampleRivalProof 1 sampleFee [⟨0, 0, 1, 0⟩])
  refine ⟨s, s', one, hreach, hclean, hcall, hs', hcomplaint,
    hsound.1.mpr (Or.inr (Or.inl fun hhash => ?_)), hpublish,
    hsound.2.mpr fun b1 b2 hshown => ⟨?_, ?_⟩⟩
  · -- the hash tells the two apart
    have htx : (sampleOnce : Tx IdealDigest) = sampleFee :=
      hashTx_injective idealCrypto_injective hhash
    exact absurd htx (by decide)
  · exact (by decide : (sampleOnce : Tx IdealDigest) ≠ sampleFee)
  · intro hplace
    have hoff : UInt8.ofNat 0 = UInt8.ofNat 1 := congrArg (fun place => place.2.2) hplace
    exact absurd hoff (by decide)

/-- The node is told twice of one transaction, and complains of its block. -/
theorem doublespend_unsound :
    ∃ s s', NodeReach idealEnv s ∧ (s.blk 1).complaint = none ∧
      ¬ CallsJustified idealEnv s ⟨0, 0, sampleOnce, sampleOnce⟩ ∧
      nodeStep idealEnv s (.packet ⟨1, false⟩ (.txDoublespend ⟨0, 0, sampleOnce, sampleOnce⟩))
        = .ok s' ∧ (s'.blk 1).complaint.isSome := by
  have hrun : (nodeRun idealEnv sampleNode (sampleAccusation.take 2) >>= fun s => do
      let s' ← nodeStep idealEnv s
        (.packet ⟨1, false⟩ (.txDoublespend ⟨0, 0, sampleOnce, sampleOnce⟩))
      let _ ← dropBoth idealEnv s ⟨0, 0, sampleOnce, sampleOnce⟩
      .ok ((s.blk 1).complaint.isNone,
        decide (checkPktTxDoublespend idealCrypto s ⟨0, 0, sampleOnce, sampleOnce⟩ = .none),
        (txhashVals s (hashTx idealCrypto sampleOnce)).any TxhashElem.isInBlock,
        (s'.blk 1).complaint.isSome)) = .ok (true, true, true, true) := by
    decide +kernel
  obtain ⟨s, hs, hrest⟩ := of_bind_eq_ok hrun
  obtain ⟨s', hs', hrest⟩ := of_bind_eq_ok hrest
  obtain ⟨s₁, hdrop, hchecks⟩ := of_bind_eq_ok hrest
  injection hchecks with hchecks
  simp only [Prod.mk.injEq, decide_eq_true_eq, Option.isNone_iff_eq_none, List.any_eq_true]
    at hchecks
  obtain ⟨hclean, hcheck, ⟨te, hte, hin⟩, hcomplaint⟩ := hchecks
  have hreach := nodeReach_sampleNode.run hs
  refine ⟨s, s', hreach, hclean, fun hjust => ?_, hs', hcomplaint⟩
  rcases ((ledgerOk_of_nodeReach hreach).callsJustified_iff _).mp hjust
    with hne | hne | hnone | ⟨e, hstop⟩
  · exact hne hcheck
  · exact hne rfl
  · exact absurd (hnone te hte) (by rw [hin]; decide)
  · rw [hdrop] at hstop
    exact absurd hstop (by simp)

end Pettycoin
