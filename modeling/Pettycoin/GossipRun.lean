import Pettycoin.GossipSteps

/-!
# Pettycoin — gossip

Nodes that are linked in any way pass items on to each other, and what they send
arrives in any order, or not at all. Whether each item is passed on the first time
only (`DiesOut`) depends on the transactions that come by themselves: `recv_tx`
passes on what it knows already, as `add_pending_tx` returns the same for it.

* `gossip_dies_out_iff` — over a run, the items are passed on the first time only,
  exactly if no such transaction arrives.
* `gossip_circulates` — three nodes in a ring never stop passing one on.
-/

namespace Pettycoin

open ExceptRules Novelty

variable {D : Type} [Digest D] [DecidableEq D]

-- ---------------------------------------------------------------------------
-- The network
-- ---------------------------------------------------------------------------

/-- The complaint a packet makes. -/
def Packet.complaint : Packet D → Option (Complaint D)
  | .complainTxMisorder t1 t2 => some (.txMisorder t1 t2)
  | .complainTxInvalid error proof blob _ => some (invalidTxComplaint error proof blob)
  | .complainTxBadInput inputnum t inTx => some (.txBadInput inputnum t inTx)
  | .complainTxBadAmount t inputs => some (.txBadAmount t inputs)
  | .complainDoublespend input1 input2 t1 t2 => some (.doublespend input1 input2 t1 t2)
  | .complainBadInputRef inputnum t input => some (.badInputRef inputnum t input)
  | .complainClaimInputInvalid claim reward => some (.claimInputInvalid claim reward)
  | _ => none

/-- The packet that a call sends to the peers. The merkle branch of a proof is left open. -/
def Event.Carries (s : State D) : Event D → Packet D → Prop
  | .sendBlockToPeers _ b, .block p =>
    p.hdr = (s.blk b).hdr ∧ p.shardNums = (s.blk b).shardNums ∧ p.merkles = (s.blk b).merkles ∧
      p.prevTxhashes = (s.blk b).prevTxhashes ∧ p.tailer = (s.blk b).tailer
  | .sendTxInBlockToPeers _ b shardnum txoff, .txInBlock t =>
    t.proof.pos.block = (s.blk b).sha ∧ t.proof.pos.shard.toNat = shardnum ∧
      t.proof.pos.txoff.toNat = txoff ∧ blockGetTx s b shardnum txoff = some t.tx ∧
      blockGetRefs s b shardnum txoff = some t.refs
  | .broadcastToPeers complaint _, pkt => pkt.complaint = some complaint
  | .sendTxToPeers _ tx, .tx tx' => tx' = tx
  | _, _ => False

/-- The calls that send to all peers but one. -/
def Event.goesTo (peer : Nat) : Event D → Bool
  | .sendBlockToPeers exclude _ => exclude ≠ some peer
  | .sendTxInBlockToPeers exclude _ _ _ => exclude ≠ some peer
  | .sendTxToPeers exclude _ => exclude ≠ some peer
  | .broadcastToPeers _ exclude => exclude ≠ some peer
  | _ => false

/-- A packet on its way, and the state it was made from. -/
structure Letter (D : Type) where
  src : Nat
  dst : Nat
  call : Event D
  state : State D

/-- The nodes, and what is on its way. -/
structure Network (D : Type) where
  nodes : Nat → State D
  wires : List (Letter D)

/-- The packets that node `n` sends in a step, to those of its peers that are not still
syncing and want them. -/
def posted (links : Nat → List Nat) (wants : Nat → Event D → Bool) (n : Nat) (s : State D) :
    List (Letter D) :=
  s.events.flatMap fun call =>
    ((links n).filter fun m => call.goesTo m && wants m call).map fun m => ⟨n, m, call, s⟩

/-- Before a step: what it calls is recorded from here on. -/
def State.fresh (s : State D) : State D := { s with events := [] }

/-- A node's step, as a run records it. -/
structure NetStep (D : Type) where
  node : Nat
  event : NodeEvent D
  before : State D
  after : State D
  letters : List (Letter D)

/-- A run of the network, newest step first. A letter arrives, or a node handles something
else: its generator, the command line, the clock, what a peer sends because it was asked. -/
inductive NetRun (E : Env D) (links : Nat → List Nat) : List (NetStep D) → Network D → Prop
  | start (nodes : Nat → State D) : (∀ n, NodeReach E (nodes n)) → NetRun E links [] ⟨nodes, []⟩
  | handle {steps : List (NetStep D)} {net : Network D} {s' : State D} (n : Nat)
      (event : NodeEvent D) (wants : Nat → Event D → Bool) : NetRun E links steps net →
    nodeStep E (net.nodes n).fresh event = .ok s' →
    NetRun E links
      (⟨n, event, (net.nodes n).fresh, s', posted links wants n s'⟩ :: steps)
      ⟨Function.update net.nodes n s', net.wires ++ posted links wants n s'⟩
  | deliver {steps : List (NetStep D)} {net : Network D} {s' : State D} {letter : Letter D}
      {early late : List (Letter D)} (pkt : Packet D) (weAreSyncing : Bool)
      (wants : Nat → Event D → Bool) : NetRun E links steps net →
    net.wires = early ++ letter :: late → letter.call.Carries letter.state pkt →
    nodeStep E (net.nodes letter.dst).fresh (.packet ⟨letter.src, weAreSyncing⟩ pkt)
      = .ok s' →
    NetRun E links
      (⟨letter.dst, .packet ⟨letter.src, weAreSyncing⟩ pkt,
        (net.nodes letter.dst).fresh, s', posted links wants letter.dst s'⟩ :: steps)
      ⟨Function.update net.nodes letter.dst s', early ++ late ++ posted links wants letter.dst s'⟩

-- ---------------------------------------------------------------------------
-- Passing on once
-- ---------------------------------------------------------------------------

/-- The transaction is in the chain of `longest_knowns[0]`, or pending. -/
def knowsTx (C : Crypto D) (s : State D) (tx : Tx D) : Bool :=
  (txhashGettxAncestor s (hashTx C tx) (s.longestKnowns.headD 0)).isSome ||
    (txhashGetPendingTx s (hashTx C tx)).isSome

/-- What a node knows. -/
def Knows (C : Crypto D) (s : State D) : Item D → Prop
  | .tx tx => knowsTx C s tx = true
  | item => Stored s item

/-- What the step's node passes on. -/
def NetStep.told (step : NetStep D) : List (Item D) := step.after.forwarded

/-- The item is new in this step: it is stored from then on, and a transaction by itself is
taken in by `add_pending_tx`. -/
def NetStep.First (E : Env D) (step : NetStep D) : Item D → Prop
  | .tx tx => knowsTx E.crypto step.before tx = false ∧
    ∃ s r, addPendingTx E step.before tx = .ok (s, r) ∧ knowsTx E.crypto s tx = true
  | item => ¬ Stored step.before item ∧ Stored step.after item

/-- The items of the letters to `m`. -/
def sentTo (m : Nat) (letters : List (Letter D)) : List (Item D) :=
  letters.filterMap fun letter => if letter.dst = m then letter.call.item else none

/-- How often `n` sends `m` the item, because it passes it on. -/
def timesSent (steps : List (NetStep D)) (n m : Nat) (item : Item D) : Nat :=
  ((steps.filter fun step => step.node = n).flatMap fun step => sentTo m step.letters).count item

/-- In these steps node `n` still knows what it has passed on. -/
def KeepsKnowing (C : Crypto D) (steps : List (NetStep D)) (n : Nat) (item : Item D) : Prop :=
  steps.Pairwise fun later earlier => later.node = n → earlier.node = n →
    item ∈ earlier.told → Knows C later.before item

/-- **Gossip dies out**: items are passed on the first time only; a node that keeps knowing an
item sends it once at most over each of its links; and what is in a block, it sends once at
most in the whole run. -/
structure DiesOut (E : Env D) (steps : List (NetStep D)) : Prop where
  first : ∀ step ∈ steps, ∀ item ∈ step.told, step.First E item
  once : ∀ (stretch : List (NetStep D)) (n m : Nat) (item : Item D), stretch <:+: steps →
    KeepsKnowing E.crypto stretch n item → timesSent stretch n m item ≤ 1
  stored : ∀ (n m : Nat) (item : Item D), (∀ tx, item ≠ .tx tx) → timesSent steps n m item ≤ 1

/-- The node requires a fee that the transaction does not pay, and its inputs are fine or
unknown. -/
def DropsUnseen (E : Env D) (s : State D) (tx : Tx D) : Prop :=
  dropsFeeless s tx = true ∧
    ∃ ierr bad, checkTxInputs E s (s.longestKnowns.headD 0) none tx = .ok (ierr, bad) ∧
      (ierr = .unknown ∨ ierr = .ok ∧ findPendingDoublespend s tx = false)

/-- No transaction arrives by itself, and passes `check_tx`, that the node knows already or
drops because of the fee. -/
def NetStep.Refrains (E : Env D) (step : NetStep D) : Prop :=
  ∀ peer tx, step.event = .packet peer (.tx tx) → checkTx E.crypto step.before tx none = .none →
    knowsTx E.crypto step.before tx = false ∧ ¬ DropsUnseen E step.before tx

variable {E : Env D} {links : Nat → List Nat} {steps : List (NetStep D)} {net : Network D}
  {s : State D}

-- ---------------------------------------------------------------------------
-- Transactions that are taken in
-- ---------------------------------------------------------------------------

/-- What `add_pending_tx_to_hashes` takes in is known. -/
theorem knowsTx_of_added {tx : Tx D} {s' : State D}
    (h : addPendingTxToHashes E s tx = .ok s') : knowsTx E.crypto s' tx = true := by
  unfold addPendingTxToHashes at h
  obtain ⟨-, -, h⟩ := of_bind_eq_ok h
  obtain rfl := Except.ok.inj h
  have hmem : (⟨hashTx E.crypto tx, .pending tx⟩ : TxhashElem D) ∈
      txhashVals (txhashAddTx E (recordInputs E s true tx) (.pending tx) (hashTx E.crypto tx))
        (hashTx E.crypto tx) := by
    refine List.mem_filter.mpr ⟨?_, beq_self_eq_true _⟩
    exact (E.txLayout.add_perm _ _).mem_iff.mpr List.mem_cons_self
  unfold knowsTx txhashGetPendingTx
  rw [Bool.or_eq_true]
  refine .inr (List.findSome?_isSome_iff.mpr ⟨_, hmem, ?_⟩)
  rfl

/-- A known transaction is not looked at again. -/
theorem addPendingTx_of_knows {tx : Tx D} (h : knowsTx E.crypto s tx = true) :
    addPendingTx E s tx = .ok (s, ⟨.ok, 0, none⟩) := by
  unfold addPendingTx
  dsimp only
  split_ifs with hchain hpend
  · rfl
  · rfl
  · unfold knowsTx at h
    rw [Bool.or_eq_true] at h
    exact absurd h (not_or.mpr ⟨hchain, hpend⟩)

theorem addPendingTx_of_unknown {tx : Tx D} (h : knowsTx E.crypto s tx = false) :
    addPendingTx E s tx = (do
      let (ierr, bad) ← checkTxInputs E s (s.longestKnowns.headD 0) none tx
      let ierr := if ierr = .ok && findPendingDoublespend s tx then .doublespend else ierr
      match ierr with
      | .ok | .unknown => keepPendingTx E s tx ierr bad
      | _ => .ok (s, ⟨ierr, bad, some false⟩)) := by
  unfold knowsTx at h
  obtain ⟨hchain, hpend⟩ := Bool.or_eq_false_iff.mp h
  unfold addPendingTx
  dsimp only
  exact (if_neg (ne_true_of_eq_false hchain)).trans (if_neg (ne_true_of_eq_false hpend))

/-- A transaction with inputs that are fine, or unknown, is kept, or dropped unseen. -/
theorem keepPendingTx_knows {tx : Tx D} {ierr : InputEcode} {bad : Nat} {s' : State D}
    {r : AddPending} (h : keepPendingTx E s tx ierr bad = .ok (s', r))
    (hfee : dropsFeeless s tx = false) (hr : r.ierr ≠ .bad) :
    knowsTx E.crypto s' tx = true := by
  have hfinish : ∀ (s₁ : State D) (a : AddPending), (do
      let s₂ ← addPendingTxToHashes E s₁ tx
      Except.ok (s₂, a)) = Except.ok (s', r) → knowsTx E.crypto s' tx = true := by
    intro s₁ a hs₁
    obtain ⟨s₂, hs₂, hs₁⟩ := of_bind_eq_ok hs₁
    obtain ⟨rfl, -⟩ := Prod.mk.inj (Except.ok.inj hs₁)
    exact knowsTx_of_added hs₂
  unfold keepPendingTx at h
  rw [if_neg (ne_true_of_eq_false hfee)] at h
  dsimp only at h
  split_ifs at h
  · exact hfinish _ _ h
  · obtain ⟨⟨s₁, kept⟩, -, h⟩ := of_bind_eq_ok h
    dsimp only at h
    split_ifs at h
    · obtain ⟨-, rfl⟩ := Prod.mk.inj (Except.ok.inj h)
      exact absurd rfl hr
    · exact hfinish _ _ h

/-- What `recv_tx` passes on has been taken in, unless it was known or is dropped unseen. -/
theorem taken_of_notRefused {tx : Tx D} (h : NotRefused E s tx)
    (hunknown : knowsTx E.crypto s tx = false) (hseen : ¬ DropsUnseen E s tx) :
    ∃ s₁ r, addPendingTx E s tx = .ok (s₁, r) ∧ knowsTx E.crypto s₁ tx = true := by
  obtain ⟨-, s₁, r, hr, hierr⟩ := h
  refine ⟨s₁, r, hr, ?_⟩
  have hbad : r.ierr ≠ .bad := by
    rcases hierr with heq | heq
    · simp [heq]
    · simp [heq]
  rw [addPendingTx_of_unknown hunknown] at hr
  obtain ⟨⟨ierr, bad⟩, hcheck, hr⟩ := of_bind_eq_ok hr
  dsimp only at hr
  have hfee : ∀ ierr', (if ierr = .ok && findPendingDoublespend s tx then .doublespend else ierr)
      = ierr' → (ierr' = .ok ∨ ierr' = .unknown) → dropsFeeless s tx = false := by
    intro ierr' heq hgood
    refine Bool.eq_false_iff.mpr fun hfee => hseen ⟨hfee, ierr, bad, hcheck, ?_⟩
    split_ifs at heq with hdouble
    · rcases hgood with rfl | rfl
      · exact absurd heq (by simp)
      · exact absurd heq (by simp)
    · rcases hgood with rfl | rfl
      · refine .inr ⟨heq, ?_⟩
        subst heq
        simpa using hdouble
      · exact .inl heq
  split at hr
  · rename_i heq
    exact keepPendingTx_knows hr (hfee _ heq (.inl rfl)) hbad
  · rename_i heq
    exact keepPendingTx_knows hr (hfee _ heq (.inr rfl)) hbad
  · rename_i hok hunk
    obtain ⟨-, rfl⟩ := Prod.mk.inj (Except.ok.inj hr)
    rcases hierr with heq | heq
    · exact absurd heq hok
    · exact absurd heq hunk

/-- A transaction that is dropped unseen is not refused, and is not known then either. -/
theorem notRefused_of_dropsUnseen {tx : Tx D} (hcheck : checkTx E.crypto s tx none = .none)
    (hunknown : knowsTx E.crypto s tx = false) (h : DropsUnseen E s tx) :
    NotRefused E s tx ∧ ∀ s₁ r, addPendingTx E s tx = .ok (s₁, r) → s₁ = s := by
  obtain ⟨hfee, ierr, bad, hinputs, hgood⟩ := h
  have hkeep : ∀ ierr', keepPendingTx E s tx ierr' bad = .ok (s, ⟨.ok, bad, none⟩) := by
    intro ierr'
    unfold keepPendingTx
    rw [if_pos hfee]
  have hadd : addPendingTx E s tx = .ok (s, ⟨.ok, bad, none⟩) := by
    rw [addPendingTx_of_unknown hunknown, hinputs, ok_bind]
    rcases hgood with rfl | ⟨rfl, hdouble⟩
    · exact hkeep .unknown
    · rw [hdouble]
      exact hkeep .ok
  refine ⟨⟨hcheck, s, _, hadd, .inl rfl⟩, fun s₁ r hr => ?_⟩
  exact (Prod.mk.inj (Except.ok.inj (hadd.symm.trans hr))).1.symm

-- ---------------------------------------------------------------------------
-- One step
-- ---------------------------------------------------------------------------

/-- A step of a node whose labels are right. -/
structure NetStep.Runs (E : Env D) (links : Nat → List Nat) (step : NetStep D) : Prop where
  labels : Labels step.before
  silent : step.before.events = []
  run : nodeStep E step.before step.event = .ok step.after
  letters : ∃ wants, step.letters = posted links wants step.node step.after

theorem NetStep.Runs.tells {step : NetStep D} (h : step.Runs E links) :
    Tells (PassesOn E step.before step.event) step.before step.after :=
  (nodeStep_told h.labels step.event).of_ok h.run

/-- What a step passes on: what is new and stored from then on, and the transaction that
`recv_tx` does not refuse. -/
theorem NetStep.Runs.told {step : NetStep D} (h : step.Runs E links) :
    step.told.Nodup ∧
      (∀ item ∈ step.told, (¬ Stored step.before item ∧ Stored step.after item) ∨
        ∃ tx, item = .tx tx ∧ PassesOn E step.before step.event tx) ∧
      ∀ tx, PassesOn E step.before step.event tx → Item.tx tx ∈ step.told := by
  obtain ⟨new, hlog, hnodup, hnew, hP⟩ := h.tells.told
  have hnone : step.before.forwarded = [] := by
    unfold State.forwarded
    rw [h.silent]
    rfl
  rw [hnone, List.nil_append] at hlog
  unfold NetStep.told
  rw [hlog]
  exact ⟨hnodup, hnew, hP⟩

/-- **One step** passes items on the first time only, exactly if it refrains. -/
theorem first_iff_refrains {step : NetStep D} (h : step.Runs E links) :
    (∀ item ∈ step.told, step.First E item) ↔ step.Refrains E := by
  obtain ⟨-, hnew, hP⟩ := h.told
  constructor
  · intro hfirst peer tx hevent hcheck
    have hunknown : NotRefused E step.before tx → knowsTx E.crypto step.before tx = false ∧
        ∃ s r, addPendingTx E step.before tx = .ok (s, r) ∧ knowsTx E.crypto s tx = true :=
      fun hpass => hfirst _ (hP tx ⟨peer, hevent, hpass⟩)
    by_cases hknows : knowsTx E.crypto step.before tx = true
    · have hadd := addPendingTx_of_knows hknows
      exact absurd (hunknown ⟨hcheck, _, _, hadd, .inl rfl⟩).1 (by simp [hknows])
    · rw [Bool.not_eq_true] at hknows
      refine ⟨hknows, fun hdrops => ?_⟩
      obtain ⟨hpass, hsame⟩ := notRefused_of_dropsUnseen hcheck hknows hdrops
      obtain ⟨-, s₁, r, hr, hknown⟩ := hunknown hpass
      obtain rfl := hsame s₁ r hr
      exact absurd hknown (by simp [hknows])
  · intro hrefrains item hitem
    rcases hnew item hitem with hfresh | ⟨tx, rfl, peer, hevent, hpass⟩
    · cases item with
      | tx tx => exact absurd hfresh.2 id
      | block b => exact hfresh
      | slot b i j => exact hfresh
      | complaint sha => exact hfresh
    · obtain ⟨hunknown, hseen⟩ := hrefrains peer tx hevent hpass.1
      exact ⟨hunknown, taken_of_notRefused hpass hunknown hseen⟩

-- ---------------------------------------------------------------------------
-- Letters
-- ---------------------------------------------------------------------------

omit [Digest D] [DecidableEq D] in
theorem sentTo_cons (m : Nat) (letter : Letter D) (letters : List (Letter D)) :
    sentTo m (letter :: letters)
      = (if letter.dst = m then letter.call.item else none).toList ++ sentTo m letters := by
  unfold sentTo
  rw [List.filterMap_cons]
  split
  · rename_i hnone
    rw [hnone]
    rfl
  · rename_i item hsome
    rw [hsome]
    rfl

omit [Digest D] [DecidableEq D] in
theorem sentTo_append (m : Nat) (letters letters' : List (Letter D)) :
    sentTo m (letters ++ letters') = sentTo m letters ++ sentTo m letters' :=
  List.filterMap_append

omit [Digest D] [DecidableEq D] in
/-- Letters to others are no letters to `m`. -/
theorem sentTo_eq_nil {m : Nat} {letters : List (Letter D)}
    (h : ∀ letter ∈ letters, letter.dst ≠ m) : sentTo m letters = [] :=
  List.filterMap_eq_nil_iff.mpr fun letter hletter => if_neg (h letter hletter)

omit [Digest D] [DecidableEq D] in
/-- One call sends a peer one packet at most. -/
theorem sentTo_call_sublist {l : List Nat} (hnodup : l.Nodup) (n m : Nat) (call : Event D)
    (s : State D) :
    (sentTo m (l.map fun m' => (⟨n, m', call, s⟩ : Letter D))).Sublist call.item.toList := by
  induction l with
  | nil => exact List.nil_sublist _
  | cons m' l ih =>
    obtain ⟨hnew, hrest⟩ := List.nodup_cons.mp hnodup
    rw [List.map_cons, sentTo_cons]
    split_ifs with hm
    · have hm : m' = m := hm
      have hnil : sentTo m (l.map fun m' => (⟨n, m', call, s⟩ : Letter D)) = [] := by
        refine sentTo_eq_nil fun letter hletter => ?_
        obtain ⟨m'', hm'', rfl⟩ := List.mem_map.mp hletter
        rintro rfl
        exact hnew (hm ▸ hm'')
      rw [hnil, List.append_nil]
    · exact ih hrest

omit [Digest D] [DecidableEq D] in
/-- What goes to a peer has been passed on. -/
theorem sentTo_posted_sublist {wants : Nat → Event D → Bool} {n : Nat} (hnodup : (links n).Nodup)
    (m : Nat) (s : State D) : (sentTo m (posted links wants n s)).Sublist s.forwarded := by
  unfold posted State.forwarded
  generalize s.events = calls
  induction calls with
  | nil => exact List.nil_sublist _
  | cons call calls ih =>
    have hone := sentTo_call_sublist (hnodup.filter fun m' => call.goesTo m' && wants m' call)
      n m call s
    have hsplit : (call :: calls).filterMap Event.item
        = call.item.toList ++ calls.filterMap Event.item := by
      cases hitem : call.item with
      | none => rw [List.filterMap_cons_none hitem]; rfl
      | some item => rw [List.filterMap_cons_some hitem]; rfl
    rw [hsplit, List.flatMap_cons, sentTo_append]
    exact hone.append ih

omit [Digest D] in
theorem count_flatMap_le {α : Type} {f g : α → List (Item D)} {l : List α} {item : Item D}
    (h : ∀ a ∈ l, (f a).Sublist (g a)) :
    (l.flatMap f).count item ≤ (l.flatMap g).count item := by
  induction l with
  | nil => exact Nat.le_refl 0
  | cons a l ih =>
    rw [List.flatMap_cons, List.flatMap_cons, List.count_append, List.count_append]
    refine Nat.add_le_add ((h a List.mem_cons_self).count_le item) ?_
    exact ih fun b hb => h b (List.mem_cons_of_mem a hb)

-- ---------------------------------------------------------------------------
-- Runs
-- ---------------------------------------------------------------------------

omit [Digest D] [DecidableEq D] in
theorem Labels.fresh (h : Labels s) : Labels s.fresh :=
  ⟨h.distinct, h.proofs, h.placed, h.depth⟩

/-- What the nodes have at the end of a run. -/
structure NetInv (E : Env D) (links : Nat → List Nat) (steps : List (NetStep D))
    (net : Network D) : Prop where
  runs : ∀ step ∈ steps, step.Runs E links
  labels : ∀ n, Labels (net.nodes n)
  now : ∀ step ∈ steps, ∀ item, Stored step.after item → Stored (net.nodes step.node) item
  later : steps.Pairwise fun later earlier => later.node = earlier.node →
    ∀ item, Stored earlier.after item → Stored later.before item

omit [Digest D] [DecidableEq D] in
theorem stored_fresh {item : Item D} : Stored s.fresh item ↔ Stored s item := by
  cases item with
  | block b => exact Iff.rfl
  | slot b i j => exact Iff.rfl
  | complaint sha => exact Iff.rfl
  | tx tx => exact Iff.rfl

/-- One more step. -/
theorem NetInv.step (h : NetInv E links steps net) {n : Nat} {event : NodeEvent D} {s' : State D}
    {wires : List (Letter D)} (wants : Nat → Event D → Bool)
    (hs' : nodeStep E (net.nodes n).fresh event = .ok s') :
    NetInv E links
      (⟨n, event, (net.nodes n).fresh, s', posted links wants n s'⟩ :: steps)
      ⟨Function.update net.nodes n s', wires⟩ := by
  have hruns : NetStep.Runs E links
      ⟨n, event, (net.nodes n).fresh, s', posted links wants n s'⟩ :=
    ⟨(h.labels n).fresh, rfl, hs', wants, rfl⟩
  have hkeeps : ∀ item, Stored (net.nodes n) item → Stored s' item :=
    fun item hitem => hruns.tells.keeps item (stored_fresh.mpr hitem)
  refine ⟨?_, fun m => ?_, ?_, ?_⟩
  · intro step hstep
    rcases List.mem_cons.mp hstep with rfl | hold
    · exact hruns
    · exact h.runs step hold
  · show Labels (Function.update net.nodes n s' m)
    by_cases hm : m = n
    · subst hm
      rw [Function.update_self]
      exact hruns.tells.labels
    · rw [Function.update_of_ne hm]
      exact h.labels m
  · intro step hstep item hitem
    show Stored (Function.update net.nodes n s' step.node) item
    rcases List.mem_cons.mp hstep with rfl | hold
    · rw [Function.update_self]
      exact hitem
    · by_cases hm : step.node = n
      · rw [hm, Function.update_self]
        exact hkeeps item (hm ▸ h.now step hold item hitem)
      · rw [Function.update_of_ne hm]
        exact h.now step hold item hitem
  · refine List.pairwise_cons.mpr ⟨fun step hstep hnode item hitem => ?_, h.later⟩
    have hnode : n = step.node := hnode
    refine stored_fresh.mpr ?_
    rw [hnode]
    exact h.now step hstep item hitem

theorem NetRun.inv (h : NetRun E links steps net) : NetInv E links steps net := by
  induction h with
  | start nodes hreach =>
    exact ⟨fun _ hstep => absurd hstep List.not_mem_nil, fun n => (hreach n).labels,
      fun _ hstep => absurd hstep List.not_mem_nil, .nil⟩
  | handle n event wants _ hs' ih => exact ih.step wants hs'
  | deliver pkt weAreSyncing wants _ _ _ hs' ih => exact ih.step wants hs'

/-- A node that keeps knowing what it passes on sends it once at most over a link, if it passes
it on for the first time only. -/
theorem timesSent_le_one {stretch : List (NetStep D)} {n m : Nat} {item : Item D}
    (hlinks : ∀ n, (links n).Nodup) (hruns : ∀ step ∈ stretch, step.Runs E links)
    (hnew : ∀ step ∈ stretch, item ∈ step.told → ¬ Knows E.crypto step.before item)
    (hkept : KeepsKnowing E.crypto stretch n item) : timesSent stretch n m item ≤ 1 := by
  have hmem : ∀ step ∈ stretch.filter fun step => step.node = n, step.Runs E links :=
    fun step hstep => hruns step (List.mem_filter.mp hstep).1
  have hpairs : (stretch.filter fun step => step.node = n).Pairwise fun later earlier =>
      item ∈ earlier.told → Knows E.crypto later.before item := by
    refine List.pairwise_filter.mpr (hkept.imp fun hpair hlater hearlier hitem => ?_)
    exact hpair (by simpa using hlater) (by simpa using hearlier) hitem
  have htold : ((stretch.filter fun step => step.node = n).flatMap NetStep.told).count item ≤ 1 :=
    count_told_le_one (fun step hstep => (hmem step hstep).told.1)
      (fun step hstep => hnew step (List.mem_filter.mp hstep).1) hpairs
  refine (count_flatMap_le fun step hstep => ?_).trans htold
  obtain ⟨wants, hletters⟩ := (hmem step hstep).letters
  rw [hletters]
  exact sentTo_posted_sublist (hlinks _) m step.after

theorem not_knows_of_first {step : NetStep D} {item : Item D} (h : step.First E item) :
    ¬ Knows E.crypto step.before item := by
  cases item with
  | tx tx => exact ne_true_of_eq_false h.1
  | block b => exact h.1
  | slot b i j => exact h.1
  | complaint sha => exact h.1

theorem knows_iff_stored {C : Crypto D} {item : Item D}
    (h : ∀ tx, item ≠ .tx tx) : Knows C s item ↔ Stored s item := by
  cases item with
  | tx tx => exact absurd rfl (h tx)
  | block b => exact Iff.rfl
  | slot b i j => exact Iff.rfl
  | complaint sha => exact Iff.rfl

/-- **When gossip dies out**: in a run of a network, linked in any way, exactly if each of its
steps refrains: no transaction arrives by itself that is known already, or is dropped because of
the fee. -/
theorem gossip_dies_out_iff (h : NetRun E links steps net) (hlinks : ∀ n, (links n).Nodup) :
    DiesOut E steps ↔ ∀ step ∈ steps, step.Refrains E := by
  have hinv := h.inv
  constructor
  · intro hdies step hstep
    exact (first_iff_refrains (hinv.runs step hstep)).mp (hdies.first step hstep)
  · intro hrefrains
    have hfirst : ∀ step ∈ steps, ∀ item ∈ step.told, step.First E item :=
      fun step hstep => (first_iff_refrains (hinv.runs step hstep)).mpr (hrefrains step hstep)
    refine ⟨hfirst, fun stretch n m item hpart hkept => ?_, fun n m item hne => ?_⟩
    · refine timesSent_le_one hlinks (fun step hstep => hinv.runs step (hpart.subset hstep))
        (fun step hstep hitem => ?_) hkept
      exact not_knows_of_first (hfirst step (hpart.subset hstep) item hitem)
    · refine timesSent_le_one hlinks hinv.runs
        (fun step hstep hitem => not_knows_of_first (hfirst step hstep item hitem)) ?_
      refine hinv.later.imp_of_mem fun {later earlier} _ hearlier hpair hn hn' hitem => ?_
      have hstored : Stored earlier.after item := by
        have hfirst := hfirst earlier hearlier item hitem
        cases item with
        | tx tx => exact absurd rfl (hne tx)
        | block b => exact hfirst.2
        | slot b i j => exact hfirst.2
        | complaint sha => exact hfirst.2
      exact (knows_iff_stored hne).mpr (hpair (hn.trans hn'.symm) item hstored)

-- ---------------------------------------------------------------------------
-- A packet that circulates
-- ---------------------------------------------------------------------------

/-- The node knows the transaction, and has nothing to do about it. -/
structure Idle (E : Env D) (s : State D) (tx : Tx D) : Prop where
  check : checkTx E.crypto s tx none = .none
  knows : knowsTx E.crypto s tx = true
  pending : ∀ te ∈ txhashVals s (hashTx E.crypto tx), te.loc = .pending tx
  settled : s.pending.needsRecheck = false

/-- **`recv_tx` passes on what it knows.** -/
theorem nodeStep_of_idle {tx : Tx D} (h : Idle E s tx) (peer : Peer) :
    nodeStep E s (.packet peer (.tx tx)) = .ok (s.emit (.sendTxToPeers (some peer.id) tx)) := by
  have hresolve : ∀ elems : List (TxhashElem D), (∀ te ∈ elems, te.loc = .pending tx) →
      resolveHashesOf E (some peer.id) elems s = .ok s := by
    intro elems helems
    induction elems with
    | nil => rfl
    | cons te rest ih =>
      unfold resolveHashesOf
      rw [helems te List.mem_cons_self]
      exact ih fun te' hte' => helems te' (List.mem_cons_of_mem _ hte')
  have hrecv : recvTx E s peer tx = .ok (s.emit (.sendTxToPeers (some peer.id) tx), .none) := by
    unfold recvTx
    rw [h.check, addPendingTx_of_knows h.knows, ok_bind]
    show (do
      let s ← recvPendingTx E s peer tx
      Except.ok (s, Ecode.none)) = _
    unfold recvPendingTx
    rw [hresolve _ h.pending]
    rfl
  have hrecheck : recheckPendingTxs E (s.emit (.sendTxToPeers (some peer.id) tx))
      = .ok (s.emit (.sendTxToPeers (some peer.id) tx)) := by
    unfold recheckPendingTxs
    show (if (!s.pending.needsRecheck) = true then _ else _) = _
    rw [h.settled]
    rfl
  have hpkt : pktIn E s peer (.tx tx)
      = .ok (s.emit (.sendTxToPeers (some peer.id) tx), .none) := by
    unfold pktIn recvPacket
    dsimp only
    rw [hrecv, ok_bind]
    dsimp only
    rw [if_neg (by simp), hrecheck]
    rfl
  unfold nodeStep
  dsimp only
  rw [hpkt]
  rfl

/-- Three nodes, each linked to the others. -/
def ring : Nat → List Nat
  | 0 => [1, 2]
  | 1 => [0, 2]
  | 2 => [0, 1]
  | _ => []

/-- A letter from `a` to `b` about a transaction that all three nodes know. -/
structure Circling (E : Env D) (tx : Tx D) (net : Network D) (a b : Nat) : Prop where
  idle : ∀ n < 3, Idle E (net.nodes n).fresh tx
  letter : ∃ letter ∈ net.wires, letter.src = a ∧ letter.dst = b ∧
    ∃ exclude, letter.call = .sendTxToPeers exclude tx

omit [Digest D] [DecidableEq D] in
/-- A call that goes to a peer is a letter to it. -/
theorem mem_posted {n m : Nat} {call : Event D} (hcall : call ∈ s.events) (hm : m ∈ links n)
    (hgoes : call.goesTo m = true) :
    (⟨n, m, call, s⟩ : Letter D) ∈ posted links (fun _ _ => true) n s := by
  refine List.mem_flatMap.mpr ⟨call, hcall, List.mem_map.mpr ⟨m, List.mem_filter.mpr ⟨hm, ?_⟩, rfl⟩⟩
  rw [hgoes]
  rfl

/-- The letter arrives at `b`, which passes it on to `c`. -/
theorem Circling.pass {tx : Tx D} {a b : Nat} (h : Circling E tx net a b) (c : Nat)
    (hrun : NetRun E ring steps net) (hb : b < 3) (hc : c ∈ ring b) (hac : c ≠ a) :
    ∃ step net', NetRun E ring (step :: steps) net' ∧ Circling E tx net' b c ∧ step.node = b ∧
      knowsTx E.crypto step.before tx = true ∧ Item.tx tx ∈ sentTo c step.letters := by
  obtain ⟨letter, hletter, rfl, rfl, exclude, hcall⟩ := h.letter
  obtain ⟨early, late, hwires⟩ := List.append_of_mem hletter
  have hidle := h.idle letter.dst hb
  have hcarries : letter.call.Carries letter.state (.tx tx) := by
    rw [hcall]
    rfl
  have hs := nodeStep_of_idle hidle ⟨letter.src, false⟩
  have hpost : (⟨letter.dst, c, .sendTxToPeers (some letter.src) tx,
      (net.nodes letter.dst).fresh.emit (.sendTxToPeers (some letter.src) tx)⟩ : Letter D) ∈
        posted ring (fun _ _ => true) letter.dst
          ((net.nodes letter.dst).fresh.emit (.sendTxToPeers (some letter.src) tx)) := by
    refine mem_posted (List.mem_append_right _ (List.mem_singleton.mpr rfl)) hc ?_
    simpa [Event.goesTo] using fun heq => hac heq.symm
  refine ⟨_, _, hrun.deliver (.tx tx) false (fun _ _ => true) hwires hcarries hs,
    ⟨fun n hn => ?_, _, List.mem_append_right _ hpost, rfl, rfl, _, rfl⟩, rfl, hidle.knows, ?_⟩
  · show Idle E (Function.update net.nodes letter.dst _ n).fresh tx
    by_cases hdst : n = letter.dst
    · subst hdst
      rw [Function.update_self]
      exact hidle
    · rw [Function.update_of_ne hdst]
      exact h.idle n hn
  · exact List.mem_filterMap.mpr ⟨_, hpost, if_pos rfl⟩

omit [Digest D] in
theorem timesSent_cons (step : NetStep D) (steps : List (NetStep D)) (n m : Nat) (item : Item D) :
    timesSent (step :: steps) n m item
      = (if step.node = n then (sentTo m step.letters).count item else 0)
        + timesSent steps n m item := by
  unfold timesSent
  by_cases hn : step.node = n
  · rw [List.filter_cons_of_pos (by simpa using hn), List.flatMap_cons, List.count_append,
      if_pos hn]
  · rw [List.filter_cons_of_neg (by simpa using hn), if_neg hn, Nat.zero_add]

theorem KeepsKnowing.cons {C : Crypto D} {step : NetStep D} {n : Nat} {item : Item D}
    (h : KeepsKnowing C steps n item) (hstep : step.node = n → Knows C step.before item) :
    KeepsKnowing C (step :: steps) n item :=
  List.pairwise_cons.mpr ⟨fun _ _ hn _ _ => hstep hn, h⟩

/-- Once around the ring: node 0 sends the transaction again. -/
theorem Circling.lap {tx : Tx D} (h : Circling E tx net 2 0) (hrun : NetRun E ring steps net)
    (hkeeps : KeepsKnowing E.crypto steps 0 (.tx tx)) :
    ∃ steps' net', NetRun E ring steps' net' ∧ Circling E tx net' 2 0 ∧
      KeepsKnowing E.crypto steps' 0 (.tx tx) ∧
      timesSent steps 0 1 (.tx tx) < timesSent steps' 0 1 (.tx tx) := by
  obtain ⟨step₀, net₀, hrun₀, h₀, hn₀, hknows₀, hsent⟩ :=
    h.pass 1 hrun (by decide) (by decide) (by decide)
  obtain ⟨step₁, net₁, hrun₁, h₁, hn₁, hknows₁, -⟩ :=
    h₀.pass 2 hrun₀ (by decide) (by decide) (by decide)
  obtain ⟨step₂, net₂, hrun₂, h₂, hn₂, hknows₂, -⟩ :=
    h₁.pass 0 hrun₁ (by decide) (by decide) (by decide)
  refine ⟨_, net₂, hrun₂, h₂, ?_, ?_⟩
  · exact ((hkeeps.cons fun _ => hknows₀).cons fun _ => hknows₁).cons fun _ => hknows₂
  · rw [timesSent_cons, timesSent_cons, timesSent_cons, if_neg (by rw [hn₂]; decide),
      if_neg (by rw [hn₁]; decide), if_pos hn₀]
    have hpos := List.count_pos_iff.mpr hsent
    omega

theorem Circling.laps {tx : Tx D} (h : Circling E tx net 2 0) (hrun : NetRun E ring steps net)
    (hkeeps : KeepsKnowing E.crypto steps 0 (.tx tx)) (k : Nat) :
    ∃ steps' net', NetRun E ring steps' net' ∧ Circling E tx net' 2 0 ∧
      KeepsKnowing E.crypto steps' 0 (.tx tx) ∧ k ≤ timesSent steps' 0 1 (.tx tx) := by
  induction k with
  | zero => exact ⟨steps, net, hrun, h, hkeeps, Nat.zero_le _⟩
  | succ k ih =>
    obtain ⟨steps₁, net₁, hrun₁, h₁, hkeeps₁, hk⟩ := ih
    obtain ⟨steps₂, net₂, hrun₂, h₂, hkeeps₂, hmore⟩ := h₁.lap hrun₁ hkeeps₁
    exact ⟨steps₂, net₂, hrun₂, h₂, hkeeps₂, by omega⟩

/-- The call sends the sample to all but this peer. -/
def sendsSample (exclude : Option Nat) : Event IdealDigest → Bool
  | .sendTxToPeers exclude' tx => exclude' = exclude && tx = samplePayment
  | _ => false

/-- After this event the node is idle, and it has sent the sample to all but this peer. -/
def idleAfter (event : NodeEvent IdealDigest) (exclude : Option Nat) : Bool :=
  match nodeStep idealEnv sampleNode event with
  | .ok s =>
    decide (checkTx idealCrypto s.fresh samplePayment none = .none) &&
      knowsTx idealCrypto s.fresh samplePayment &&
      (txhashVals s.fresh (hashTx idealCrypto samplePayment)).all
        (fun te => decide (te.loc = .pending samplePayment)) &&
      !s.fresh.pending.needsRecheck && s.events.any (sendsSample exclude)
  | .error _ => false

theorem of_idleAfter {event : NodeEvent IdealDigest} {exclude : Option Nat}
    (h : idleAfter event exclude = true) :
    ∃ s, nodeStep idealEnv sampleNode event = .ok s ∧ Idle idealEnv s.fresh samplePayment ∧
      .sendTxToPeers exclude samplePayment ∈ s.events := by
  unfold idleAfter at h
  split at h
  · rename_i s hs
    simp only [Bool.and_eq_true, decide_eq_true_eq, Bool.not_eq_true', List.all_eq_true,
      List.any_eq_true] at h
    obtain ⟨⟨⟨⟨hcheck, hknows⟩, hpending⟩, hsettled⟩, call, hcall, hsends⟩ := h
    refine ⟨s, hs, ⟨hcheck, hknows, hpending, hsettled⟩, ?_⟩
    unfold sendsSample at hsends
    split at hsends
    · simp only [Bool.and_eq_true, decide_eq_true_eq] at hsends
      obtain ⟨rfl, rfl⟩ := hsends
      exact hcall
    · exact absurd hsends (by simp)
  · exact absurd h (by simp)

theorem idleAfter_sample :
    idleAfter (.sendrawtransaction samplePayment) none = true ∧
      idleAfter (.packet ⟨0, false⟩ (.tx samplePayment)) (some 0) = true ∧
      idleAfter (.packet ⟨1, false⟩ (.tx samplePayment)) (some 1) = true := by
  decide +kernel

/-- One node is given a transaction, and the other two get it from each other. -/
theorem circling_sample : ∃ steps net, NetRun idealEnv ring steps net ∧
    Circling idealEnv samplePayment net 2 0 ∧
    KeepsKnowing idealEnv.crypto steps 0 (.tx samplePayment) := by
  obtain ⟨hfirst, hsecond, hthird⟩ := idleAfter_sample
  obtain ⟨s₀, hs₀, hidle₀, hcall₀⟩ := of_idleAfter hfirst
  obtain ⟨s₁, hs₁, hidle₁, hcall₁⟩ := of_idleAfter hsecond
  obtain ⟨s₂, hs₂, hidle₂, hcall₂⟩ := of_idleAfter hthird
  have hstart : NetRun idealEnv ring [] ⟨fun _ => sampleNode, []⟩ :=
    .start _ fun _ => nodeReach_sampleNode
  have hrun₀ := hstart.handle 0 _ (fun _ _ => true) hs₀
  have hpost₀ : (⟨0, 1, .sendTxToPeers none samplePayment, s₀⟩ : Letter IdealDigest) ∈
      posted ring (fun _ _ => true) 0 s₀ := mem_posted hcall₀ (by decide) rfl
  obtain ⟨early₀, late₀, hwires₀⟩ := List.append_of_mem (List.mem_append_right [] hpost₀)
  have hrun₁ := hrun₀.deliver (.tx samplePayment) false (fun _ _ => true) hwires₀ rfl hs₁
  have hpost₁ : (⟨1, 2, .sendTxToPeers (some 0) samplePayment, s₁⟩ : Letter IdealDigest) ∈
      posted ring (fun _ _ => true) 1 s₁ := mem_posted hcall₁ (by decide) (by decide)
  obtain ⟨early₁, late₁, hwires₁⟩ :=
    List.append_of_mem (List.mem_append_right (early₀ ++ late₀) hpost₁)
  have hrun₂ := hrun₁.deliver (.tx samplePayment) false (fun _ _ => true) hwires₁ rfl hs₂
  have hpost₂ : (⟨2, 0, .sendTxToPeers (some 1) samplePayment, s₂⟩ : Letter IdealDigest) ∈
      posted ring (fun _ _ => true) 2 s₂ := mem_posted hcall₂ (by decide) (by decide)
  refine ⟨_, _, hrun₂, ⟨fun n hn => ?_, _, List.mem_append_right _ hpost₂, rfl, rfl, _, rfl⟩, ?_⟩
  · obtain rfl | rfl | rfl : n = 0 ∨ n = 1 ∨ n = 2 := by omega
    · exact hidle₀
    · exact hidle₁
    · exact hidle₂
  · refine KeepsKnowing.cons (KeepsKnowing.cons ?_ fun h => absurd h Nat.one_ne_zero)
      fun h => absurd h (Nat.succ_ne_zero 1)
    exact List.pairwise_singleton _ _

/-- **A packet that circulates**: a transaction is passed on over the same link as often as one
likes, by a node that knows it all the time. So gossip does not die out. -/
theorem gossip_circulates :
    (∃ steps net, NetRun idealEnv ring steps net ∧ ¬ DiesOut idealEnv steps) ∧
    ∀ k, ∃ steps net, NetRun idealEnv ring steps net ∧
      KeepsKnowing idealCrypto steps 0 (.tx samplePayment) ∧
      k ≤ timesSent steps 0 1 (.tx samplePayment) := by
  obtain ⟨steps, net, hrun, hcircling, hkeeps⟩ := circling_sample
  constructor
  · obtain ⟨steps₂, net₂, hrun₂, -, hkeeps₂, htwice⟩ := hcircling.laps hrun hkeeps 2
    refine ⟨steps₂, net₂, hrun₂, fun hdies => ?_⟩
    have honce := hdies.once steps₂ 0 1 (.tx samplePayment) (List.infix_refl _) hkeeps₂
    omega
  · intro k
    obtain ⟨steps', net', hrun', -, hkeeps', hk⟩ := hcircling.laps hrun hkeeps k
    exact ⟨steps', net', hrun', hkeeps', hk⟩

/-- In this network the steps tell. -/
theorem gossip_dies_out_iff_ring : ∃ steps net, NetRun idealEnv ring steps net ∧
    (DiesOut idealEnv steps ↔ ∀ step ∈ steps, step.Refrains idealEnv) := by
  have hlinks : ∀ n, (ring n).Nodup := by
    intro n
    unfold ring
    split
    all_goals simp
  obtain ⟨steps, net, hrun, -⟩ := circling_sample
  exact ⟨steps, net, hrun, gossip_dies_out_iff hrun hlinks⟩

end Pettycoin
