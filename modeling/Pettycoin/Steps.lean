import Pettycoin.NodeRun
import Pettycoin.Minor
import Mathlib.Logic.Relation

/-!
# Pettycoin — the steps a node takes

Whatever the node does with an event, it does by a few kinds of `Step`: it moves
the heads, rechecks, takes in or drops pending transactions, marks the subtree
of a bad block, fills a slot, stores or drops proofs, and adds a block. Each
function of the node makes a `Trail` of such steps, so that an invariant of the
stores is proved once for each kind of step.

Whether a block may have a complaint when a slot of it is filled depends on the
event. A trail is made under a promise: a slot of which `g` holds is only filled
in a block without a complaint.

* `Step.ledger` — each kind keeps what is known of the blocks right;
* `Trail.step`, `Moves.trans` — how trails are made;
* `publishComplaint_moves` — a complaint;
* `putTxInShard_trail`, `putTxhashInShard_trail` — a slot that is filled.
-/

namespace Pettycoin

open ExceptRules Relation

variable {D : Type} [Digest D] [DecidableEq D] {E : Env D} {g : Slot D → Prop}
  {I : State D → Prop} {s₀ s s' : State D} {b shardnum txoff : Nat}

-- ---------------------------------------------------------------------------
-- Steps
-- ---------------------------------------------------------------------------

/-- `txhash` names the place. -/
def Named (s : State D) (b shardnum txoff : Nat) : Prop :=
  ∃ te ∈ s.txhash, te.loc = .inBlock b shardnum txoff

/-- What `recv_block` knows of a block it hands to `block_add`. -/
structure Addable (s : State D) (prev : BlockId) (nb : NewBlock D) : Prop where
  prev_lt : prev < s.numBlocks
  shardOrder : nb.hdr.shardOrder = protocolInitialShardOrder
  depth : nb.hdr.depth = (s.blk prev).hdr.depth + 1
  expLow : 3 ≤ difficultyExp nb.tailer.difficulty
  expHigh : difficultyExp nb.tailer.difficulty ≤ 32
  difficulty : getDifficulty s prev = .ok nb.tailer.difficulty
  fresh : blockFindAny s nb.sha = none

/-- One kind of thing the node does to its stores. -/
inductive Step (E : Env D) (g : Slot D → Prop) : State D → State D → Prop
  | quiet {s s' : State D} : Quiet s s' → Step E g s s'
  | recheckPending {s s' : State D} : recheckPendingTxs E s = .ok s' → Step E g s s'
  | addPending {s s' : State D} (tx : Tx D) (r : AddPending) : TxOk E.crypto tx →
    addPendingTx E s tx = .ok (s', r) → Step E g s s'
  | dropPending {s s' : State D} (tx : Tx D) : dropPendingTx E s tx = .ok s' → Step E g s s'
  | invalidate {s s' : State D} (b : BlockId) (complaint : Complaint D) :
    b < s.numBlocks → (s.blk b).complaint = none →
    (∃ shardnum txoff h, Proven E.crypto (s.blk b) shardnum txoff h) →
    complaintOnAll E complaint s.numBlocks s b = .ok s' → Step E g s s'
  | fillUnknown {s : State D} (b : BlockId) (shardnum txoff : Nat) (tx : Tx D)
    (refs : List InputRef) : b < s.numBlocks → (s.shardOf b shardnum).u txoff = .unknown →
    Proven E.crypto (s.blk b) shardnum txoff (hashTxAndRefs E.crypto tx refs) →
    TxOk E.crypto tx → (g .unknown → (s.blk b).complaint = none) →
    Step E g s (filledUnknown E s b shardnum txoff tx refs)
  | fillHash {s : State D} (b : BlockId) (shardnum txoff : Nat) (tx : Tx D)
    (refs : List InputRef) : b < s.numBlocks →
    (s.shardOf b shardnum).u txoff = .hash (hashTxAndRefs E.crypto tx refs) →
    TxOk E.crypto tx →
    (g (.hash (hashTxAndRefs E.crypto tx refs)) →
      (s.blk b).complaint = none ∨ Named s b shardnum txoff) →
    Step E g s (filledHash E s b shardnum txoff tx refs)
  | setHash {s : State D} (b : BlockId) (shardnum txoff : Nat) (h : TxRefHash D) :
    b < s.numBlocks → (s.shardOf b shardnum).u txoff = .unknown →
    Proven E.crypto (s.blk b) shardnum txoff h → (g .unknown → (s.blk b).complaint = none) →
    Step E g s (filledWithHash E s b shardnum txoff h)
  | storeProofs {s : State D} (b : BlockId) (shardnum : Nat)
    (f : BlockShard D → Option (Nat → Option (Proof D))) :
    Step E g s (s.modShard b shardnum fun shard => { shard with proof := f shard })
  | sew {s : State D} (prev : BlockId) (nb : NewBlock D) : Addable s prev nb →
    Step E g s (sewBlock s prev nb)

/-- Any number of steps. -/
abbrev Trail (E : Env D) (g : Slot D → Prop) : State D → State D → Prop := ReflTransGen (Step E g)

/-- A turn of one of the loops that start over after a complaint. -/
inductive Restart (E : Env D) : State D → State D → Prop
  | recheck {s s' : State D} (elems : List (InputhashElem D)) :
    recheckSpenders E elems s = .ok (s', false) → Restart E s s'
  | doublespend {s s' : State D} (pkt : PktTxDoublespend D) (one two : Spend D) :
    doublespendCall E.crypto s pkt = .ok (some (one, two)) →
    complainDoublespend E s one two = .ok s' → Restart E s s'

/-- Where a trail may end in a fault. A loop that starts over for ever has had a turn after which
`txhash` names as many places as before. -/
inductive Stopped (E : Env D) (g : Slot D → Prop) (s₀ : State D) : Fault → Prop
  | plain {e : Fault} : e.Plain → Stopped E g s₀ e
  | put {e : Fault} : e.FromPut → Stopped E g s₀ e
  | stuck {s s' : State D} : Trail E g s₀ s → Restart E s s' →
    (placed s).length ≤ (placed s').length → Stopped E g s₀ .diverges
  | recheck {s : State D} {b shardnum txoff : Nat} : Trail E g s₀ s → Named s b shardnum txoff →
    (s.blk b).complaint.isSome → Stopped E g s₀ .recheckComplained

theorem off_lt_of_proven {C : Crypto D} {h : TxRefHash D}
    (hproven : Proven C (s.blk b) shardnum txoff h) : txoff < (s.blk b).shardSize shardnum := by
  obtain ⟨proof, rfl, rfl, hacc⟩ := hproven
  exact (checkProofByhash_eq_true.mp hacc).2.1

/-- What each step does to the ledger. -/
theorem Step.ledger (h : Step E g s s') (hl : Ledger E s) :
    Ledger E s' ∧ Later E.crypto s s' := by
  have hframe : Frame E s s' → Ledger E s' ∧ Later E.crypto s s' :=
    fun hf => ⟨hl.frame hf, hf.later⟩
  cases h with
  | quiet hq => exact hframe ((Frame.refl E s).quiet hq)
  | recheckPending h => exact hframe ((recheckPendingTxs_frame (.refl E s)).of_ok h)
  | addPending tx r hok h => exact hframe ((addPendingTx_frame (.refl E s) (.inr hok)).of_ok h)
  | dropPending tx h => exact hframe ((dropPendingTx_frame (.refl E s) tx).of_ok h)
  | invalidate b complaint _ _ _ h =>
    exact hframe ((complaintOnAll_frame complaint _ (.refl E s) b).of_ok h)
  | fillUnknown b shardnum txoff tx refs hb hu hproven hok _ =>
    have hs := hl.slotSet_unknown tx refs hu (off_lt_of_proven hproven)
    have hold : ∀ h', entryAt E.crypto s b shardnum txoff = some h' →
        h' = hashTxAndRefs E.crypto tx refs := by
      rw [entryAt_eq_none.mpr hu]
      exact fun _ h => absurd h (by simp)
    refine ⟨hl.setSlot hs hb hproven hold fun tx' refs' htx => ?_, hs.later hold⟩
    injection htx with htx
    exact htx ▸ hok
  | fillHash b shardnum txoff tx refs hb hu hok _ =>
    have hs := hl.slotSet_hash hu
    have hold : ∀ h', entryAt E.crypto s b shardnum txoff = some h' →
        h' = hashTxAndRefs E.crypto tx refs := by
      rw [entryAt_hash hu]
      exact fun _ h => (Option.some.inj h).symm
    refine ⟨hl.setSlot hs hb (hl.proven _ _ _ _ (entryAt_hash hu)) hold fun tx' refs' htx => ?_,
      hs.later hold⟩
    injection htx with htx
    exact htx ▸ hok
  | setHash b shardnum txoff h hb hu hproven _ =>
    have hs := hl.slotSet_setHash hu (off_lt_of_proven hproven) (h := h)
    have hold : ∀ h', entryAt E.crypto s b shardnum txoff = some h' → h' = h := by
      rw [entryAt_eq_none.mpr hu]
      exact fun _ h => absurd h (by simp)
    have hf := (Frame.refl E (addTxhashToHashes E
      (s.modShard b shardnum fun shard => shard.setHash txoff h) b shardnum txoff
      h.txhash)).setNeedsRecheck
    exact ⟨(hl.setSlot hs hb hproven hold fun _ _ h => absurd h (by simp)).frame hf,
      (hs.later hold).trans hf.later⟩
  | storeProofs b shardnum f => exact ⟨hl.modProof f, later_modProof _ f⟩
  | sew prev nb hadd =>
    exact ⟨hl.sewBlock hadd.prev_lt hadd.shardOrder, later_sewBlock _ hadd.prev_lt⟩

theorem Trail.ledger (h : Trail E g s₀ s) (hl : Ledger E s₀) :
    Ledger E s ∧ Later E.crypto s₀ s := by
  induction h with
  | refl => exact ⟨hl, Later.refl _ _⟩
  | tail _ hstep ih =>
    obtain ⟨hl', hlater⟩ := hstep.ledger ih.1
    exact ⟨hl', ih.2.trans hlater⟩

theorem Trail.quiet (h : Trail E g s₀ s) (hq : Quiet s s') : Trail E g s₀ s' :=
  h.tail (.quiet hq)

theorem Trail.emit (h : Trail E g s₀ s) (e : Event D) : Trail E g s₀ (s.emit e) :=
  h.quiet ((Quiet.refl s).emit e)

theorem Trail.setNeedsRecheck (h : Trail E g s₀ s) : Trail E g s₀ s.setNeedsRecheck :=
  h.quiet (Quiet.refl s).setNeedsRecheck

theorem Stopped.after (ht : Trail E g s₀ s) (e : Fault) (h : Stopped E g s e) :
    Stopped E g s₀ e := by
  cases h with
  | plain h => exact .plain h
  | put h => exact .put h
  | stuck h hrestart hle => exact .stuck (ht.trans h) hrestart hle
  | recheck h hnamed hc => exact .recheck (ht.trans h) hnamed hc

/-- A call with plain faults, as part of a trail. -/
theorem StopsPlainly.stopped {α : Type} {x : Res α} (g : Slot D → Prop) (s₀ : State D)
    (hx : StopsPlainly x) : Ensures (Stopped E g s₀) x fun _ => True :=
  hx.weaken fun _ => .plain

/-- A step that returns as it says, with plain faults. -/
theorem Trail.step {α : Type} {x : Res α} {f : α → State D} {P : α → Prop}
    (ht : Trail E g s₀ s) (hx : Ensures Fault.Plain x P)
    (hstep : ∀ r, x = .ok r → Step E g s (f r)) :
    Ensures Fault.Plain x fun r => Trail E g s₀ (f r) := by
  cases hr : x with
  | ok r => exact ht.tail (hstep r hr)
  | error e => exact hx.of_error hr

-- ---------------------------------------------------------------------------
-- Complaints
-- ---------------------------------------------------------------------------

/-- The block is one that something has been proven to be in. -/
def Provable (C : Crypto D) (s : State D) (b : BlockId) : Prop :=
  b < s.numBlocks ∧ ∃ shardnum txoff h, Proven C (s.blk b) shardnum txoff h

theorem Provable.later {C : Crypto D} (hb : Provable C s b) (hlater : Later C s s') :
    Provable C s' b := by
  obtain ⟨hlt, i, j, e, hproven⟩ := hb
  exact ⟨hlt.trans_le hlater.numBlocks, i, j, e, hlater.proven hlt hproven⟩

theorem recheckPendingTxs_trail (ht : Trail E g s₀ s) :
    Ensures Fault.Plain (recheckPendingTxs E s) (Trail E g s₀) :=
  ht.step (recheckPendingTxs_frame (.refl E s)) fun _ h => .recheckPending h

theorem dropPendingTx_trail (ht : Trail E g s₀ s) (tx : Tx D) :
    Ensures Fault.Plain (dropPendingTx E s tx) (Trail E g s₀) :=
  ht.step (dropPendingTx_frame (.refl E s) tx) fun _ h => .dropPending tx h

theorem addPendingTx_trail (ht : Trail E g s₀ s) {tx : Tx D} (hok : TxOk E.crypto tx) :
    Ensures Fault.Plain (addPendingTx E s tx) fun r => Trail E g s₀ r.1 :=
  ht.step (addPendingTx_frame (.refl E s) (.inr hok)) fun r h => .addPending tx r.2 hok h

theorem publishComplaint_trail (ht : Trail E g s₀ s) (hb : Provable E.crypto s b)
    (complaint : Complaint D) (origin : Option Nat) :
    Ensures Fault.Plain (publishComplaint E s b complaint origin) (Trail E g s₀) := by
  unfold publishComplaint
  split_ifs with hc
  · exact ht
  · have hclean : (s.blk b).complaint = none := by simpa using hc
    refine Ensures.bind (ht.step (f := id) (complaintOnAll_frame complaint _ (.refl E s) b)
      fun s₁ h => .invalidate b complaint hb.1 hclean hb.2 h) fun s₁ h₁ => ?_
    refine (recheckPendingTxs_trail h₁).bind fun s₂ h₂ => ?_
    refine (updateBlockPtrsInvalidated_quiet (.refl s₂) b).bind fun s₃ h₃ => ?_
    exact (h₂.quiet h₃).emit _

-- ---------------------------------------------------------------------------
-- What checks keep
-- ---------------------------------------------------------------------------

/-- Checking, asking and complaining keep the property. -/
structure Steady (E : Env D) (I : State D → Prop) : Prop where
  still : ∀ {s s' : State D}, Still s s' → I s → I s'
  publish : ∀ {s s' : State D} {b : BlockId} {complaint : Complaint D} {origin : Option Nat},
    Ledger E s → Provable E.crypto s b → publishComplaint E s b complaint origin = .ok s' →
      I s → I s'

/-- A trail that keeps the property as a whole. -/
structure Moves (E : Env D) (g : Slot D → Prop) (I : State D → Prop) (s₀ s : State D) : Prop where
  trail : Trail E g s₀ s
  keeps : I s₀ → I s

theorem Moves.refl (s : State D) : Moves E g I s s := ⟨.refl, id⟩

theorem Moves.trans (h : Moves E g I s₀ s) (h' : Moves E g I s s') : Moves E g I s₀ s' :=
  ⟨h.trail.trans h'.trail, fun hi => h'.keeps (h.keeps hi)⟩

theorem Moves.ledger (h : Moves E g I s₀ s) (hl : Ledger E s₀) :
    Ledger E s ∧ Later E.crypto s₀ s := h.trail.ledger hl

theorem Moves.still (h : Moves E g I s₀ s) (hI : Steady E I) (hs : Still s s') :
    Moves E g I s₀ s' :=
  ⟨h.trail.quiet hs.toQuiet, fun hi => hI.still hs (h.keeps hi)⟩

theorem Moves.emit (h : Moves E g I s₀ s) (hI : Steady E I) (e : Event D) :
    Moves E g I s₀ (s.emit e) := h.still hI ((Still.refl s).emit e)

theorem Moves.setNeedsRecheck (h : Moves E g I s₀ s) (hI : Steady E I) :
    Moves E g I s₀ s.setNeedsRecheck := h.still hI (Still.refl s).setNeedsRecheck

/-- A call makes moves if it makes a trail and keeps the property. -/
theorem Moves.of_trail {F : Fault → Prop} {α : Type} {x : Res α} {f : α → State D}
    (ht : Moves E g I s₀ s) (hx : Ensures F x fun r => Trail E g s₀ (f r))
    (hkeep : ∀ r, x = .ok r → I s → I (f r)) : Ensures F x fun r => Moves E g I s₀ (f r) :=
  hx.mono_ok fun r hr h => ⟨h, fun hi => hkeep r hr (ht.keeps hi)⟩

/-- A trail keeps what always holds. -/
theorem Trail.moves (h : Trail E g s₀ s) : Moves E g (fun _ => True) s₀ s := ⟨h, id⟩

theorem steady_true (E : Env D) : Steady E fun _ => True := ⟨fun _ => id, fun _ _ _ => id⟩

theorem publishComplaint_moves (hI : Steady E I) (hl : Ledger E s₀) (ht : Moves E g I s₀ s)
    (hb : Provable E.crypto s b) (complaint : Complaint D) (origin : Option Nat) :
    Ensures Fault.Plain (publishComplaint E s b complaint origin) (Moves E g I s₀) :=
  ht.of_trail (f := id) (publishComplaint_trail ht.trail hb complaint origin) fun _ h =>
    hI.publish (ht.ledger hl).1 hb h

theorem complainBadInput_moves (hI : Steady E I) (hl : Ledger E s₀) (ht : Moves E g I s₀ s)
    (hb : Provable E.crypto s b)
    (t : ProvenTx D) (badInput : Nat) (intx : Tx D) :
    Ensures Fault.Plain (complainBadInput E s b t badInput intx) (Moves E g I s₀) := by
  unfold complainBadInput
  exact (stopsPlainly_deref _).bind fun _ _ => publishComplaint_moves hI hl ht hb _ _

theorem complainMisorder_moves (hI : Steady E I) (hl : Ledger E s₀) (ht : Moves E g I s₀ s)
    (hb : Provable E.crypto s b)
    (t : ProvenTx D) (conflictTxoff : Nat) :
    Ensures Fault.Plain (complainMisorder E s b t conflictTxoff) (Moves E g I s₀) := by
  unfold complainMisorder
  exact (provenTxAt_plain _ _ _ _ _).bind fun _ _ => publishComplaint_moves hI hl ht hb _ _

theorem complainBadInputRef_moves (hI : Steady E I) (hl : Ledger E s₀) (ht : Moves E g I s₀ s)
    (hb : Provable E.crypto s b)
    (t : ProvenTx D) (badRefnum referred : Nat) :
    Ensures Fault.Plain (complainBadInputRef E s b t badRefnum referred) (Moves E g I s₀) := by
  unfold complainBadInputRef
  refine (stopsPlainly_deref _).bind fun _ _ => ?_
  exact (provenTxAt_plain _ _ _ _ _).bind fun _ _ => publishComplaint_moves hI hl ht hb _ _

theorem complainDoublespend_moves (hI : Steady E I) (hl : Ledger E s₀)
    (ht : Moves E g I s₀ s) (one two : Spend D)
    (hb : Provable E.crypto s two.block) :
    Ensures Fault.Plain (complainDoublespend E s one two) (Moves E g I s₀) := by
  unfold complainDoublespend
  refine (stopsPlainly_assert .doublespendOrder trivial).bind fun _ _ => ?_
  refine (stopsPlainly_deref _).bind fun _ _ => ?_
  exact (stopsPlainly_deref _).bind fun _ _ => publishComplaint_moves hI hl ht hb _ _

theorem complainBadClaim_moves (hI : Steady E I) (hl : Ledger E s₀) (ht : Moves E g I s₀ s)
    (hb : Provable E.crypto s b)
    (claim : ProvenTx D) (rewardBlock shard off : Nat) :
    Ensures Fault.Plain (complainBadClaim E s b claim rewardBlock shard off)
      (Moves E g I s₀) := by
  unfold complainBadClaim
  exact (provenTxAt_plain _ _ _ _ _).bind fun _ _ => publishComplaint_moves hI hl ht hb _ _

/-- A place that `txhash` names is in a block with something in it. -/
theorem Ledger.provable (hl : Ledger E s) (h : Named s b shardnum txoff) :
    Provable E.crypto s b := by
  obtain ⟨te, hte, hloc⟩ := h
  obtain ⟨hb, e, hentry, -⟩ := hl.inBlock te hte b shardnum txoff hloc
  exact ⟨hb, shardnum, txoff, e, hl.proven b shardnum txoff e hentry⟩

-- ---------------------------------------------------------------------------
-- Inputs and refs
-- ---------------------------------------------------------------------------

/-- `check_tx_inputs` reports a double spend as something else. -/
theorem checkTxInputs_ne_doublespend {tx : Tx D} {me : Option (BlockId × Nat × Nat)}
    {r : InputEcode × Nat} (h : checkTxInputs E s b me tx = .ok r) : r.1 ≠ .doublespend := by
  have hloop : ∀ (addr : Address) (inps : List (Input D)) (i known : Nat) (total : UInt32)
      (bad : Nat), checkTxInputsFrom E s b me tx addr inps i known total bad = .ok r →
        r.1 ≠ .doublespend := by
    intro addr inps
    induction inps with
    | nil =>
      intro i known total bad h
      unfold checkTxInputsFrom at h
      split_ifs at h <;> injection h with h <;> subst h <;> simp
    | cons inp rest ih =>
      intro i known total bad h
      unfold checkTxInputsFrom at h
      obtain ⟨⟨e, amount⟩, -, hrest⟩ := of_bind_eq_ok h
      dsimp only at hrest
      split at hrest
      · exact ih _ _ _ _ hrest
      · exact ih _ _ _ _ hrest
      · injection hrest with hrest
        subst hrest
        simp
  unfold checkTxInputs at h
  split at h
  · injection h with h
    subst h
    simp
  · exact hloop _ _ _ _ _ _ h

/-- What `check_tx_inputs_and_refs` does: it leaves the stores alone, or there is a
complaint. -/
def Checked (E : Env D) (g : Slot D → Prop) (I : State D → Prop) (s₀ s : State D)
    (r : State D × Bool) : Prop :=
  Moves E g I s₀ r.1 ∧ (r.2 = true → Still s r.1)

theorem complainAboutInputs_moves (hI : Steady E I) (hl : Ledger E s₀) (ht : Moves E g I s₀ s)
    (hb : Provable E.crypto s b)
    (t : ProvenTx D) {ierr : InputEcode} (hne : ierr ≠ .doublespend) (bad : Nat) :
    Ensures Fault.Plain (complainAboutInputs E s b t ierr bad) (Checked E g I s₀ s) := by
  have hstay : Checked E g I s₀ s (s, true) := ⟨ht, fun _ => .refl s⟩
  have hgone : ∀ s₁, Moves E g I s₀ s₁ → Checked E g I s₀ s (s₁, false) :=
    fun _ h₁ => ⟨h₁, fun h => absurd h (by simp)⟩
  unfold complainAboutInputs
  cases ierr with
  | ok => exact hstay
  | unknown =>
    refine (stopsPlainly_deref _).bind fun _ _ => ?_
    split_ifs
    · exact ⟨ht.emit hI _, fun _ => (Still.refl s).emit _⟩
    · exact hstay
  | bad =>
    refine (stopsPlainly_deref _).bind fun _ _ => ?_
    refine (stopsPlainly_deref _).bind fun _ _ => ?_
    exact (complainBadInput_moves hI hl ht hb t _ _).bind fun s₁ h₁ => hgone s₁ h₁
  | badAmount =>
    refine Ensures.bind (Ensures.mapM fun _ _ => stopsPlainly_deref _) fun _ _ => ?_
    exact (publishComplaint_moves hI hl ht hb _ _).bind fun s₁ h₁ => hgone s₁ h₁
  | doublespend => exact absurd rfl hne
  | claimBad =>
    refine (stopsPlainly_deref _).bind fun _ _ => ?_
    refine (stopsPlainly_deref _).bind fun pos _ => ?_
    exact (complainBadClaim_moves hI hl ht hb t _ _ _).bind fun s₁ h₁ => hgone s₁ h₁

theorem complainAboutRefs_moves (hI : Steady E I) (hl : Ledger E s₀) (ht : Moves E g I s₀ s)
    (hb : Provable E.crypto s b)
    (t : ProvenTx D) (ierr : InputEcode) :
    Ensures Fault.Plain (complainAboutRefs E s b t ierr) (Checked E g I s₀ s) := by
  have hstay : Checked E g I s₀ s (s, true) := ⟨ht, fun _ => .refl s⟩
  unfold complainAboutRefs
  refine (checkTxRefs_plain _ _ _ _ _).bind fun r _ => ?_
  obtain ⟨rerr, bad⟩ := r
  dsimp only
  split
  · exact hstay
  · exact trivial
  · split_ifs
    · exact hstay
    · exact (stopsPlainly_deref _).bind fun _ _ => ⟨ht.emit hI _, fun _ => (Still.refl s).emit _⟩
  · exact (complainBadInputRef_moves hI hl ht hb t _ _).bind fun s₁ h₁ =>
      ⟨h₁, fun h => absurd h (by simp)⟩

theorem checkTxInputsAndRefs_moves (hI : Steady E I) (hl : Ledger E s₀) (ht : Moves E g I s₀ s)
    (hb : Provable E.crypto s b) (t : ProvenTx D) :
    Ensures Fault.Plain (checkTxInputsAndRefs E s b t) (Checked E g I s₀ s) := by
  unfold checkTxInputsAndRefs
  refine Ensures.bind (P := fun r => r.1 ≠ .doublespend) ?_ fun r hne => ?_
  · cases hr : checkTxInputs E s b none t.tx with
    | ok r => exact checkTxInputs_ne_doublespend hr
    | error e => exact (checkTxInputs_plain E s b none t.tx).of_error hr
  · obtain ⟨ierr, bad⟩ := r
    refine (complainAboutInputs_moves hI hl ht hb t hne bad).bind fun r hr => ?_
    obtain ⟨s₁, valid⟩ := r
    dsimp only at hr ⊢
    split_ifs with hvalid
    · have hq := hr.2 hvalid
      have hb₁ := hb.later ((Step.quiet (E := E) (g := g) hq.toQuiet).ledger (ht.ledger hl).1).2
      refine (complainAboutRefs_moves hI hl hr.1 hb₁ t ierr).mono fun r hr' => ?_
      exact ⟨hr'.1, fun h => hq.trans (hr'.2 h)⟩
    · exact ⟨hr.1, fun h => absurd h (by simp)⟩

omit [Digest D] [DecidableEq D] in
/-- `block_ancestor` only looks at the blocks. -/
theorem blockAncestor_congr (hsame : SameBlocks s s') (b n : Nat) :
    blockAncestor s' b n = blockAncestor s b n := by
  induction n generalizing b with
  | zero => rfl
  | succ n ih =>
    unfold blockAncestor
    rw [show (s'.blk b).prev = (s.blk b).prev from congrFun hsame.prevOf_eq b]
    cases (s.blk b).prev with
    | none => rfl
    | some p => exact ih p

/-- The refs only depend on the blocks. -/
theorem checkTxRefs_congr (hsame : SameBlocks s s') (C : Crypto D) (b : Nat) (tx : Tx D)
    (refs : List InputRef) : checkTxRefs C s' b tx refs = checkTxRefs C s b tx refs := by
  have hcheck : checkRefs s' b refs = checkRefs s b refs := by
    unfold checkRefs
    congr 3
    funext ref
    unfold checkRef
    rw [blockAncestor_congr hsame]
    cases blockAncestor s b ref.blocksAgo.toNat with
    | none => rfl
    | some x =>
      dsimp only
      rw [hsame.blk x, hsame.blk b]
      rfl
  have hloop : ∀ l i unknown,
      checkTxRefsFrom C s' b l i unknown = checkTxRefsFrom C s b l i unknown := by
    intro l
    induction l with
    | nil => intro i unknown; cases unknown <;> rfl
    | cons x rest ih =>
      intro i unknown
      obtain ⟨inp, ref⟩ := x
      have href : referredTo C s' b ref = referredTo C s b ref := by
        unfold referredTo
        simp only [blockAncestor_congr hsame, hsame.shardOf_eq]
      unfold checkTxRefsFrom
      rw [href]
      simp only [ih]
  unfold checkTxRefs
  rw [hcheck, hloop]

/-- What `check_tx_inputs_and_refs` finds nothing wrong with. -/
structure InputsPass (E : Env D) (s : State D) (b : BlockId) (t : ProvenTx D) : Prop where
  inputs : ∃ ierr bad, checkTxInputs E s b none t.tx = .ok (ierr, bad) ∧
    (ierr = .ok ∨ ierr = .unknown)
  refs : ∀ bad, checkTxRefs E.crypto s b t.tx t.refs ≠ .ok (.badHash, bad)

/-- When `check_tx_inputs_and_refs` returns true, it has only asked for something. -/
theorem complainAboutInputs_true {t : ProvenTx D} {ierr : InputEcode} {bad : Nat}
    (hne : ierr ≠ .doublespend) (h : complainAboutInputs E s b t ierr bad = .ok (s', true)) :
    (ierr = .ok ∨ ierr = .unknown) ∧ Still s s' := by
  unfold complainAboutInputs at h
  cases ierr with
  | ok =>
    injection h with h
    injection h with h _
    exact ⟨.inl rfl, h ▸ .refl s⟩
  | unknown =>
    obtain ⟨inp, -, h⟩ := of_bind_eq_ok h
    refine ⟨.inr rfl, ?_⟩
    split_ifs at h <;> injection h with h <;> injection h with h _
    · exact h ▸ (Still.refl s).emit _
    · exact h ▸ .refl s
  | bad =>
    obtain ⟨_, -, h⟩ := of_bind_eq_ok h
    obtain ⟨_, -, h⟩ := of_bind_eq_ok h
    obtain ⟨_, -, h⟩ := of_bind_eq_ok h
    simp at h
  | badAmount =>
    obtain ⟨_, -, h⟩ := of_bind_eq_ok h
    obtain ⟨_, -, h⟩ := of_bind_eq_ok h
    simp at h
  | doublespend => exact absurd rfl hne
  | claimBad =>
    obtain ⟨_, -, h⟩ := of_bind_eq_ok h
    obtain ⟨_, -, h⟩ := of_bind_eq_ok h
    obtain ⟨_, -, h⟩ := of_bind_eq_ok h
    simp at h

theorem inputsPass_of_true {t : ProvenTx D} (h : checkTxInputsAndRefs E s b t = .ok (s', true)) :
    InputsPass E s b t := by
  unfold checkTxInputsAndRefs at h
  obtain ⟨⟨ierr, bad⟩, hinputs, h⟩ := of_bind_eq_ok h
  obtain ⟨⟨s₁, valid⟩, habout, h⟩ := of_bind_eq_ok h
  cases valid with
  | false => simp at h
  | true =>
    obtain ⟨hierr, hq⟩ := complainAboutInputs_true (checkTxInputs_ne_doublespend hinputs) habout
    refine ⟨⟨ierr, bad, hinputs, hierr⟩, fun bad hbad => ?_⟩
    have hrefs : checkTxRefs E.crypto s₁ b t.tx t.refs = .ok (.badHash, bad) := by
      rw [checkTxRefs_congr hq.toSameBlocks]
      exact hbad
    simp only [if_true] at h
    unfold complainAboutRefs at h
    rw [hrefs, ok_bind] at h
    cases bad with
    | none => exact absurd h (by simp)
    | some bad =>
      obtain ⟨_, -, h⟩ := of_bind_eq_ok h
      simp at h

-- ---------------------------------------------------------------------------
-- An input is learnt
-- ---------------------------------------------------------------------------

/-- While nothing is found wrong, the elements still to come stay in `txhash`. -/
theorem recheckElems_moves (hI : Steady E I) (elems : List (TxhashElem D)) (hl : Ledger E s₀)
    (ht : Moves E g I s₀ s) (hmem : ∀ te ∈ elems, te ∈ s.txhash) :
    Ensures (Stopped E g s₀) (recheckElems E elems s) fun r => Moves E g I s₀ r.1 := by
  induction elems generalizing s with
  | nil => exact ht
  | cons te rest ih =>
    have hrest : ∀ s₁, Still s s₁ → ∀ te' ∈ rest, te' ∈ s₁.txhash := by
      intro s₁ hq te' hte'
      rw [hq.txhash]
      exact hmem te' (List.mem_cons_of_mem te hte')
    unfold recheckElems
    split
    · exact ih (ht.setNeedsRecheck hI) (hrest _ (Still.refl s).setNeedsRecheck)
    · rename_i b i j hloc
      have hnamed : Named s b i j := ⟨te, hmem te List.mem_cons_self, hloc⟩
      refine Ensures.bind (ensures_assert (P := fun _ => True) (fun _ => trivial) fun hc => ?_)
        fun _ _ => ?_
      · exact .recheck ht.trail hnamed (by simpa using hc)
      · split_ifs
        · exact ih ht (hrest _ (Still.refl s))
        · refine ((provenTxAt_plain _ _ _ _ _).stopped g s₀).bind fun t _ => ?_
          have hls := (ht.ledger hl).1
          refine ((checkTxInputsAndRefs_moves hI hl ht (hls.provable hnamed) t).weaken
            fun _ => .plain).bind fun r hr => ?_
          obtain ⟨s₁, valid⟩ := r
          dsimp only at hr ⊢
          split_ifs with hvalid
          · exact ih hr.1 (hrest s₁ (hr.2 hvalid))
          · exact hr.1

theorem recheckSpenders_moves (hI : Steady E I) (elems : List (InputhashElem D)) (hl : Ledger E s₀)
    (ht : Moves E g I s₀ s) :
    Ensures (Stopped E g s₀) (recheckSpenders E elems s) fun r => Moves E g I s₀ r.1 := by
  induction elems generalizing s with
  | nil => exact ht
  | cons ie rest ih =>
    unfold recheckSpenders recheckTx
    refine (recheckElems_moves hI _ hl ht fun te hte => (List.mem_filter.mp hte).1).bind
      fun r hr => ?_
    obtain ⟨s₁, valid⟩ := r
    dsimp only at hr ⊢
    split_ifs
    · exact ih hr
    · exact hr

/-- There are at least as many turns left as places to take away, or a loop got stuck. -/
def TurnsLeft (E : Env D) (g : Slot D → Prop) (s₀ s : State D) (fuel : Nat) : Prop :=
  (placed s).length < fuel ∨ Stopped E g s₀ .diverges

theorem TurnsLeft.restart {fuel : Nat} (h : TurnsLeft E g s₀ s (fuel + 1)) (ht : Trail E g s₀ s)
    (hrestart : Restart E s s') : TurnsLeft E g s₀ s' fuel := by
  rcases h with hlt | hstuck
  · by_cases hle : (placed s).length ≤ (placed s').length
    · exact .inr (.stuck ht hrestart hle)
    · exact .inl (by omega)
  · exact .inr hstuck

omit [Digest D] [DecidableEq D] in
theorem placed_length_lt (s : State D) : (placed s).length < s.txhash.length + 1 :=
  Nat.lt_succ_of_le (List.length_filter_le _ _)

theorem checkResolvedOutput_moves
    (hI : Steady E I) (sha : D) (output : UInt16) (fuel : Nat) (hl : Ledger E s₀)
    (ht : Moves E g I s₀ s) (hturns : TurnsLeft E g s₀ s fuel) :
    Ensures (Stopped E g s₀) (checkResolvedOutput E sha output fuel s) (Moves E g I s₀) := by
  induction fuel generalizing s with
  | zero => exact hturns.resolve_left (Nat.not_lt_zero _)
  | succ fuel ih =>
    unfold checkResolvedOutput
    cases hspend : recheckSpenders E (inputhashVals s sha output) s with
    | error e => exact (recheckSpenders_moves hI _ hl ht).of_error hspend
    | ok r =>
      have hr := (recheckSpenders_moves hI _ hl ht).of_ok hspend
      obtain ⟨s₁, valid⟩ := r
      rw [ok_bind]
      dsimp only at hr ⊢
      cases valid with
      | true => exact hr
      | false => exact ih hr (hturns.restart ht.trail (.recheck _ hspend))

theorem checkResolvedTxs_moves (hI : Steady E I) (hl : Ledger E s₀)
    (ht : Moves E g I s₀ s) (tx : Tx D) :
    Ensures (Stopped E g s₀) (checkResolvedTxs E s tx) (Moves E g I s₀) :=
  Ensures.foldlM (fun s _ _ hs =>
    checkResolvedOutput_moves hI _ _ _ hl hs (.inl (placed_length_lt s))) ht

-- ---------------------------------------------------------------------------
-- Filling a shard
-- ---------------------------------------------------------------------------

/-- The debugging check stops with its own fault or a plain one. -/
theorem checkBlockShard_stopped (fault : Fault) (hfault : fault.FromPut) :
    Ensures (Stopped E g s₀) (checkBlockShard E s b shardnum fault) fun _ => True := by
  have hassert : ∀ cond : Bool, Ensures (Stopped E g s₀) (assert cond fault) fun _ => True :=
    fun cond => ensures_assert (fun _ => trivial) fun _ => .put hfault
  have hslot : ∀ i tx refs, Ensures (Stopped E g s₀)
      (checkShardTx E s b shardnum i tx refs fault) fun _ => True := by
    intro i tx refs
    unfold checkShardTx
    refine (hassert _).bind fun _ _ => ?_
    refine ((checkTxInputs_plain E s b _ tx).stopped g s₀).bind fun r _ => ?_
    refine (hassert _).bind fun _ _ => ?_
    split
    · trivial
    · exact ((stopsPlainly_deref _).stopped g s₀).bind fun _ _ => hassert _
  unfold checkBlockShard
  refine (hassert _).bind fun _ _ => ?_
  refine Ensures.bind (P := fun _ => True) ?_ fun _ _ => ?_
  · unfold checkShardProof
    split_ifs
    · exact hassert _
    · exact hassert _
    · trivial
  · refine Ensures.bind (Ensures.forM fun i _ => ?_) fun _ _ => ?_
    · split
      · exact hslot _ _ _
      · trivial
    · refine (hassert _).bind fun _ _ => (hassert _).bind fun _ _ => ?_
      split_ifs
      · exact ((merkleSomeTxs_plain _ _ _ _).stopped g s₀).bind fun _ _ => hassert _
      · trivial

section

variable {tx : Tx D} {refs : List InputRef}

theorem afterPutTx_trail (hl : Ledger E s₀) (ht : Trail E g s₀ s) (source : Option Nat) :
    Ensures (Stopped E g s₀) (afterPutTx E s source b shardnum txoff tx) (Trail E g s₀) := by
  unfold afterPutTx
  refine (checkResolvedTxs_moves (steady_true E) hl ht.moves tx).bind fun s₁ h₁ => ?_
  have h₂ : Trail E g s₀
      (if shardAllHashes (s₁.shardOf b shardnum) then
        s₁.modShard b shardnum fun shard => { shard with proof := none }
      else s₁) := by
    split_ifs
    · exact h₁.trail.tail (.storeProofs b shardnum fun _ => none)
    · exact h₁.trail
  generalize (if shardAllHashes (s₁.shardOf b shardnum) then
        s₁.modShard b shardnum fun shard => { shard with proof := none }
      else s₁) = s₂ at h₂ ⊢
  dsimp only
  have hrest : ∀ s₃, Trail E g s₀ s₃ → Ensures (Stopped E g s₀) (do
      let s₄ ← saveTx E.crypto s₃.setNeedsRecheck b shardnum txoff
      let s₅ ← sendTxInBlockToPeers E.crypto s₄ source b shardnum txoff
      checkBlockShard E s₅ b shardnum .checkShardAfterTx
      Except.ok s₅) (Trail E g s₀) := by
    intro s₃ h₃
    refine Ensures.bind (P := Trail E g s₀) ?_ fun s₄ h₄ => ?_
    · unfold saveTx
      split_ifs
      · exact h₃.setNeedsRecheck
      · exact ((provenTxAt_plain _ _ _ _ _).stopped g s₀).bind fun _ _ =>
          h₃.setNeedsRecheck.emit _
    · refine Ensures.bind (P := Trail E g s₀) ?_ fun s₅ h₅ => ?_
      · unfold sendTxInBlockToPeers
        exact ((provenTxAt_plain _ _ _ _ _).stopped g s₀).bind fun _ _ => h₄.emit _
      · exact (checkBlockShard_stopped .checkShardAfterTx trivial).bind fun _ _ => h₅
  split_ifs
  · refine Ensures.bind (P := Trail E g s₀) ?_ hrest
    exact ((updateBlockPtrsNewShard_quiet E.crypto (.refl s₂) b).mono
      fun _ hq => h₂.quiet hq).weaken fun _ => .plain
  · exact hrest s₂ h₂

/-- The promise about a slot of block `b` that a transaction is put into. -/
def FillsOr (g : Slot D → Prop) (s : State D) (b shardnum txoff : Nat) : Prop :=
  g ((s.shardOf b shardnum).u txoff) →
    (s.blk b).complaint = none ∨
      ((s.shardOf b shardnum).u txoff).isHash = true ∧ Named s b shardnum txoff

/-- Putting a transaction where it is proven to be. -/
theorem putTxInShard_trail (hl : Ledger E s₀) (ht : Trail E g s₀ s) (source : Option Nat)
    (hb : b < s.numBlocks)
    (hproven : Proven E.crypto (s.blk b) shardnum txoff (hashTxAndRefs E.crypto tx refs))
    (hok : TxOk E.crypto tx) (hg : FillsOr g s b shardnum txoff) :
    Ensures (Stopped E g s₀) (putTxInShard E s source b shardnum txoff tx refs)
      (Trail E g s₀) := by
  unfold putTxInShard
  cases hu : (s.shardOf b shardnum).u txoff with
  | tx tx' refs' =>
    refine Ensures.bind (P := fun _ => True) ?_ fun _ _ => ht
    exact ensures_assert (fun _ => trivial) fun _ => .put trivial
  | hash h =>
    dsimp only
    rw [fillSlot_of_hash hu]
    split_ifs with hh
    · subst hh
      refine afterPutTx_trail hl (ht.tail (.fillHash b shardnum txoff tx refs hb hu hok ?_)) source
      unfold FillsOr at hg
      rw [hu] at hg
      exact fun h => (hg h).imp_right And.right
    · exact .put trivial
  | unknown =>
    dsimp only
    rw [fillSlot_of_unknown hu]
    refine afterPutTx_trail hl
      (ht.tail (.fillUnknown b shardnum txoff tx refs hb hu hproven hok ?_)) source
    unfold FillsOr at hg
    rw [hu] at hg
    exact fun h => (hg h).resolve_right fun hor => absurd hor.1 (by simp [Slot.isHash])

end

/-- Putting a hash where it is proven to be. -/
theorem putTxhashInShard_trail {h : TxRefHash D} (ht : Trail E g s₀ s) (hb : b < s.numBlocks)
    (hproven : Proven E.crypto (s.blk b) shardnum txoff h)
    (hg : g .unknown → (s.shardOf b shardnum).u txoff = .unknown → (s.blk b).complaint = none) :
    Ensures (Stopped E g s₀) (putTxhashInShard E s b shardnum txoff h) fun r =>
      Trail E g s₀ r.1 ∧ (r.1.blk b).complaint = (s.blk b).complaint ∧
        (r.2 = true → Named r.1 b shardnum txoff) := by
  unfold putTxhashInShard
  cases hentry : txrefhashInShard E.crypto (s.shardOf b shardnum) txoff with
  | some p =>
    refine Ensures.bind (P := fun _ => True) ?_ fun _ _ => ⟨ht, rfl, by simp⟩
    exact ensures_assert (fun _ => trivial) fun _ => .put trivial
  | none =>
    have hu := txrefhashInShard_eq_none.mp hentry
    refine (checkBlockShard_stopped .checkShardAfterHash trivial).bind fun _ _ => ?_
    refine ⟨ht.tail (.setHash b shardnum txoff h hb hu hproven fun h' => hg h' hu), ?_, fun _ => ?_⟩
    · show ((s.modShard b shardnum fun shard => shard.setHash txoff h).blk b).complaint = _
      rw [blk_modShard]
    · exact ⟨⟨h.txhash, .inBlock b shardnum txoff⟩,
        (E.txLayout.add_perm _ _).mem_iff.mpr List.mem_cons_self, rfl⟩

end Pettycoin
