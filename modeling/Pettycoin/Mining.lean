import Pettycoin.Generating
import Pettycoin.ReorgRun

/-!
# Pettycoin — mining on the longest known block

`start_generating`, `restart_generating` and `reap_generator` of `generating.c`, with
the node that calls them: it shuts the generator down when it rechecks what is
pending, and starts another one when the old process is gone.

`recheck_pending_txs` returns early if `needs_recheck` is not set, and if nothing is
pending. That decides when the generator is left on a block that is not the head any
more.

* `no_stale_mining_iff` — the generator is on the head after each recheck of a run exactly if
  each recheck gets past its early returns when the head has moved.
* `rechecks_iff` — which moves of the head get it there, told from the state before them.
-/

namespace Pettycoin

open ExceptRules

variable {D : Type} [Digest D] [DecidableEq D]

-- ---------------------------------------------------------------------------
-- generating.c
-- ---------------------------------------------------------------------------

/-- The node, `state->reward_addr`, and what the generator at `state->gen` was started
with. -/
structure Mining (D : Type) where
  node : State D
  rewardAddr : Option Address
  gen : Option (GenArgs D)

/-- `start_generating()`, with a random nonce. -/
def startGenerating (E : Env D) (m : Mining D) (nonce : List UInt8) : Res (Mining D) :=
  match m.rewardAddr with
  | none => .ok { m with gen := none }
  | some rewardAddr => do
    let args ← execGenerator E.crypto m.node rewardAddr nonce
    .ok { m with gen := some args }

/-- A call of `restart_generating()`. -/
def Event.restarts : Event D → Bool
  | .restartGenerating => true
  | _ => false

/-- The node has come to `s`, and `restart_generating()` was called if its log says so. -/
def Mining.moveTo (m : Mining D) (s : State D) : Mining D :=
  { m with
    node := s
    gen := if s.events.any Event.restarts then none else m.gen }

/-- What can happen to a node that has a generator. -/
inductive MineEvent (D : Type)
  | node (event : NodeEvent D)
  /-- `reap_generator()`: there is one process at most, and it is gone. -/
  | reaped (ok : Bool) (nonce : List UInt8)

/-- The node deals with it. -/
def mineStep (E : Env D) (m : Mining D) : MineEvent D → Res (Mining D)
  | .node event => do
    let s ← nodeStep E { m.node with events := [] } event
    .ok (m.moveTo s)
  | .reaped ok nonce =>
    let m := { m with gen := none }
    if ok then startGenerating E m nonce else .ok m

/-- One step of a run. -/
structure MineStep (D : Type) where
  before : Mining D
  event : MineEvent D
  after : Mining D

/-- The runs of a node: it starts its generator when it is up. -/
inductive MineRun (E : Env D) : List (MineStep D) → Mining D → Prop
  | start {m : Mining D} (sha merkle : D) (nonce2 : Bytes 13) (tailer : BlockTailer) (now : UInt32)
    (opts : FeeOptions) (rewardAddr : Option Address) (nonce : List UInt8) :
    startGenerating E ⟨startNode (genesisBlock sha merkle nonce2 tailer) now opts, rewardAddr, none⟩
      nonce = .ok m → MineRun E [] m
  | step {steps : List (MineStep D)} {m m' : Mining D} (event : MineEvent D) :
    MineRun E steps m → mineStep E m event = .ok m' → MineRun E (⟨m, event, m'⟩ :: steps) m'

-- ---------------------------------------------------------------------------
-- Before the recheck
-- ---------------------------------------------------------------------------

/-- What the node does up to the `recheck_pending_txs` at the end, and whether it gets
there. -/
def handleEvent (E : Env D) (s : State D) : NodeEvent D → Res (State D × Bool)
  | .packet peer pkt => do
    let (s, e) ← recvPacket E s peer pkt
    .ok (s, e = .none)
  | .generator p shards => do
    let (s, e, b) ← recvBlock E.crypto s none p
    if e ≠ .none then .ok (s, false)
    else
      let b ← deref b
      recvShards E b shards 0 s
  | .sendrawtransaction tx => do
    let (s, _) ← sendrawtransaction E s tx
    .ok (s, false)
  | .clock now => .ok ({ s with now := now }, false)

variable {E : Env D} {s s' : State D} {m m' : Mining D} {steps : List (MineStep D)}

theorem nodeStep_eq (s : State D) (event : NodeEvent D) :
    nodeStep E s event = (do
      let (s, rechecks) ← handleEvent E s event
      if rechecks then recheckPendingTxs E s else .ok s) := by
  cases event with
  | packet peer pkt =>
    unfold nodeStep handleEvent pktIn
    dsimp only
    cases recvPacket E s peer pkt with
    | error e => rfl
    | ok r =>
      obtain ⟨s₁, e⟩ := r
      simp only [ok_bind]
      by_cases he : e = .none
      · rw [if_neg (not_not_intro he), if_pos (decide_eq_true he)]
        cases recheckPendingTxs E s₁ <;> rfl
      · rw [if_pos he, if_neg (by simpa using he)]
        rfl
  | generator p shards =>
    unfold nodeStep handleEvent recvBlockFromGenerator
    dsimp only
    cases recvBlock E.crypto s none p with
    | error e => rfl
    | ok r =>
      obtain ⟨s₁, e, b⟩ := r
      simp only [ok_bind]
      by_cases he : e = .none
      · rw [if_neg (not_not_intro he), if_neg (not_not_intro he)]
        cases deref b with
        | error e => rfl
        | ok b =>
          simp only [ok_bind]
          cases recvShards E b shards 0 s₁ with
          | error e => rfl
          | ok r =>
            obtain ⟨s₂, good⟩ := r
            cases good with
            | false => rfl
            | true =>
              show _ = recheckPendingTxs E s₂
              show (recheckPendingTxs E s₂ >>= fun s => .ok (s, true)) >>= (fun r => .ok r.1) = _
              cases recheckPendingTxs E s₂ <;> rfl
      · rw [if_pos he, if_pos he]
        rfl
  | sendrawtransaction tx =>
    unfold nodeStep handleEvent
    dsimp only
    cases sendrawtransaction E s tx <;> rfl
  | clock now => rfl

-- ---------------------------------------------------------------------------
-- The recheck
-- ---------------------------------------------------------------------------

/-- The generator, if there is one, was started on the longest known block. -/
def Mining.Fresh (m : Mining D) : Prop :=
  ∀ args, m.gen = some args → args.prevHash = (m.node.blk (m.node.longestKnowns.headD 0)).sha

instance (m : Mining D) : Decidable m.Fresh :=
  inferInstanceAs (Decidable (∀ args ∈ m.gen,
    args.prevHash = (m.node.blk (m.node.longestKnowns.headD 0)).sha))

/-- `recheck_pending_txs` gets past its early returns. -/
def Rechecks (s : State D) : Prop :=
  s.pending.needsRecheck = true ∧ (s.pending.numUnknown ≠ 0 ∨ numPendingKnown s ≠ 0)

/-- **Which moves of the head get the recheck past its early returns**: those that something is
pending after, but for the swaps of `block_add` that do not ask for one. -/
theorem rechecks_iff {op : HeadOp D} (ha : op.Admitted E s)
    (hs' : op.apply E s = .ok s') (hroom : s'.numBlocks ≤ depthLimit) :
    (knownHead s' ≠ knownHead s → Rechecks s') ↔
      ¬ op.Unasked s ∧ (knownHead s' ≠ knownHead s →
        s'.pending.numUnknown ≠ 0 ∨ numPendingKnown s' ≠ 0) := by
  rw [← reorg_asks_iff ha hs' hroom]
  unfold Rechecks
  exact forall_and

/-- `recheck_pending_txs` shuts the generator down, or does nothing but clear its flag. -/
theorem recheckPendingTxs_restarts (h : recheckPendingTxs E s = .ok s') :
    (Rechecks s ∧ s'.events.any Event.restarts = true) ∨
      (¬ Rechecks s ∧ s'.events = s.events) := by
  unfold recheckPendingTxs at h
  dsimp only at h
  split_ifs at h with hflag hnone
  · obtain rfl := Except.ok.inj h
    exact .inr ⟨fun hr => by simp [hr.1] at hflag, rfl⟩
  · obtain rfl := Except.ok.inj h
    rw [Bool.and_eq_true, decide_eq_true_eq, decide_eq_true_eq] at hnone
    exact .inr ⟨fun hr => hr.2.elim (absurd hnone.1) (absurd hnone.2), rfl⟩
  · obtain ⟨s₁, -, h⟩ := of_bind_eq_ok h
    obtain rfl := Except.ok.inj h
    refine .inl ⟨⟨by simpa using hflag, ?_⟩, ?_⟩
    · rw [Bool.and_eq_true, decide_eq_true_eq, decide_eq_true_eq, not_and_or] at hnone
      exact hnone
    · show (s₁.events ++ [Event.restartGenerating]).any Event.restarts = true
      rw [List.any_append]
      exact Bool.or_true _

/-- The recheck leaves the generator on the longest known block exactly if it was there
before, or is shut down now. -/
theorem fresh_recheck_iff (m : Mining D) (h : recheckPendingTxs E s = .ok s') :
    (m.moveTo s').Fresh ↔ (m.moveTo s).Fresh ∨ Rechecks s := by
  have hcalm := (recheckPendingTxs_calm (.refl s)).of_ok h
  rcases recheckPendingTxs_restarts h with ⟨hre, hevents⟩ | ⟨hre, hevents⟩
  · have hgen : (m.moveTo s').gen = none := if_pos hevents
    refine ⟨fun _ => .inr hre, fun _ args hargs => ?_⟩
    rw [hgen] at hargs
    exact absurd hargs (by simp)
  · have hgen : (m.moveTo s').gen = (m.moveTo s).gen := by
      unfold Mining.moveTo
      rw [hevents]
    have hsha : ((m.moveTo s').node.blk ((m.moveTo s').node.longestKnowns.headD 0)).sha
        = (s.blk (s.longestKnowns.headD 0)).sha := by
      show (s'.blk (s'.longestKnowns.headD 0)).sha = _
      rw [hcalm.knowns]
      rw [hcalm.blk]
    unfold Mining.Fresh
    rw [hgen, hsha, or_iff_left hre]
    exact Iff.rfl

-- ---------------------------------------------------------------------------
-- Runs
-- ---------------------------------------------------------------------------

omit [DecidableEq D] in
/-- A generator that is started is on the longest known block. -/
theorem startGenerating_fresh {nonce : List UInt8} (h : startGenerating E m nonce = .ok m') :
    m'.Fresh := by
  unfold startGenerating at h
  split at h
  · obtain rfl := Except.ok.inj h
    exact fun args hargs => absurd hargs (by simp)
  · obtain ⟨args, hexec, h⟩ := of_bind_eq_ok h
    obtain rfl := Except.ok.inj h
    obtain ⟨difficulty, -, hexec⟩ := of_bind_eq_ok hexec
    obtain rfl := Except.ok.inj hexec
    intro args hargs
    obtain rfl := Option.some.inj hargs
    rfl

/-- The step gets to the recheck at its end, or it is a reaped generator. -/
def MineStep.Settles (E : Env D) (step : MineStep D) : Prop :=
  match step.event with
  | .node event => ∃ s, handleEvent E { step.before.node with events := [] } event = .ok (s, true)
  | .reaped _ _ => True

/-- If the generator is not on the longest known block when the recheck is called, then
`needs_recheck` is set and something is pending. The moves of the head that see to it are those
of `rechecks_iff`. -/
def MineStep.Noticed (E : Env D) (step : MineStep D) : Prop :=
  match step.event with
  | .node event => ∀ s, handleEvent E { step.before.node with events := [] } event = .ok (s, true) →
      ¬ (step.before.moveTo s).Fresh → Rechecks s
  | .reaped _ _ => True

/-- **One step**: the generator is on the longest known block after it exactly if a move of
that is noticed. -/
theorem fresh_mineStep_iff {event : MineEvent D} (h : mineStep E m event = .ok m') :
    (MineStep.Settles E ⟨m, event, m'⟩ → m'.Fresh) ↔ MineStep.Noticed E ⟨m, event, m'⟩ := by
  cases event with
  | node event =>
    obtain ⟨s', hs', h⟩ := of_bind_eq_ok h
    obtain rfl := Except.ok.inj h
    rw [nodeStep_eq] at hs'
    obtain ⟨⟨s, rechecks⟩, hs, hs'⟩ := of_bind_eq_ok hs'
    show ((∃ s₁, handleEvent E _ event = .ok (s₁, true)) → _) ↔
      ∀ s₁, handleEvent E _ event = .ok (s₁, true) → _
    rw [hs]
    cases rechecks with
    | false => exact ⟨fun _ s₁ hs₁ => absurd hs₁ (by simp), fun _ ⟨s₁, hs₁⟩ => absurd hs₁ (by simp)⟩
    | true =>
      have hiff := fresh_recheck_iff m hs'
      constructor
      · intro hfresh s₁ hs₁ hstale
        obtain ⟨rfl, -⟩ := Prod.mk.inj (Except.ok.inj hs₁)
        exact (hiff.mp (hfresh ⟨s, rfl⟩)).resolve_left hstale
      · intro hnoticed _
        exact hiff.mpr (or_iff_not_imp_left.mpr (hnoticed s rfl))
  | reaped ok nonce =>
    refine ⟨fun _ => trivial, fun _ _ => ?_⟩
    unfold mineStep at h
    dsimp only at h
    split_ifs at h
    · exact startGenerating_fresh h
    · obtain rfl := Except.ok.inj h
      exact fun args hargs => absurd hargs (by simp)

/-- The steps of a run are the node's. -/
theorem mineStep_of_mineRun (h : MineRun E steps m) {step : MineStep D} (hstep : step ∈ steps) :
    mineStep E step.before step.event = .ok step.after := by
  induction h with
  | start => exact absurd hstep List.not_mem_nil
  | step event _ hmine ih =>
    rcases List.mem_cons.mp hstep with rfl | hrest
    · exact hmine
    · exact ih hrest

/-- **When no stale block is mined on**: in a run the generator is on the longest known block
after each recheck, exactly if at each recheck a move of that is noticed. Each step is
looked at by itself, from the state before it. -/
theorem no_stale_mining_iff (h : MineRun E steps m) :
    (∀ step ∈ steps, step.Settles E → step.after.Fresh) ↔ ∀ step ∈ steps, step.Noticed E :=
  forall₂_congr fun _ hstep => fresh_mineStep_iff (mineStep_of_mineRun h hstep)

-- ---------------------------------------------------------------------------
-- Two stale generators
-- ---------------------------------------------------------------------------

/-- More events of a run. -/
theorem MineRun.run (h : MineRun E steps m) {events : List (MineEvent D)}
    (hrun : events.foldlM (mineStep E) m = .ok m') : ∃ steps', MineRun E steps' m' := by
  induction events generalizing steps m with
  | nil =>
    obtain rfl := Except.ok.inj hrun
    exact ⟨steps, h⟩
  | cons event events ih =>
    obtain ⟨m₁, hm₁, hrun⟩ := of_bind_eq_ok hrun
    exact ih (h.step event hm₁) hrun

/-- A node that mines, just started. -/
def sampleMiner : Mining IdealDigest := ⟨sampleNode, some (Bytes.zero 20), none⟩

/-- The step for this event after those before it, and whether a stale generator is left. -/
def staleAfter (before : List (MineEvent IdealDigest)) (event : NodeEvent IdealDigest) :
    Res (Bool × Nat) := do
  let m ← startGenerating idealEnv sampleMiner [65]
  let m ← before.foldlM (mineStep idealEnv) m
  let (_, rechecks) ← handleEvent idealEnv { m.node with events := [] } event
  let m' ← mineStep idealEnv m (.node event)
  .ok (rechecks && !decide m'.Fresh, numPendingKnown m'.node)

theorem of_staleAfter {before : List (MineEvent IdealDigest)} {event : NodeEvent IdealDigest}
    {n : Nat} (h : staleAfter before event = .ok (true, n)) :
    ∃ step steps, MineRun idealEnv (step :: steps) step.after ∧ step.Settles idealEnv ∧
      ¬ step.after.Fresh ∧ numPendingKnown step.after.node = n := by
  obtain ⟨m₀, hm₀, h⟩ := of_bind_eq_ok h
  obtain ⟨m, hm, h⟩ := of_bind_eq_ok h
  obtain ⟨⟨s, rechecks⟩, hs, h⟩ := of_bind_eq_ok h
  obtain ⟨m', hm', h⟩ := of_bind_eq_ok h
  obtain ⟨hstale, hn⟩ := Prod.mk.inj (Except.ok.inj h)
  simp only [Bool.and_eq_true, Bool.not_eq_true', decide_eq_false_iff_not] at hstale
  obtain ⟨rfl, hstale⟩ := hstale
  obtain ⟨steps, hrun⟩ := (MineRun.start _ _ _ _ _ _ _ _ hm₀).run hm
  exact ⟨⟨m, .node event, m'⟩, steps, hrun.step _ hm', ⟨s, hs⟩, hstale, hn⟩

/-- A payment to mine. -/
def otherPayment : Tx IdealDigest :=
  .fromGateway
    { version := 1, paysFee := false, features := 0, gatewayKey := sampleKey 9, unused := 0
      signature := ⟨Bytes.zero 32, Bytes.zero 32⟩
      outputs := [⟨200, idealCrypto.pubkeyToAddr (sampleKey 1)⟩], numOutputs_lt := by decide }

/-- The generator is started on the first block, and a payment is there to mine, when a longer
branch comes up. -/
def beforeFork : List (MineEvent IdealDigest) :=
  [.node (sampleHeader forkFirst),
    .node (samplePacket forkFirst [(samplePayment, [])] 0 (samplePayment, [])),
    .reaped true [65], .node (sampleHeader forkOther), .node (.packet ⟨0, false⟩ (.tx otherPayment))]

theorem staleAfter_fork : staleAfter beforeFork (sampleHeader forkLonger) = .ok (true, 1) := by
  decide +kernel

/-- In a run the condition tells. -/
theorem no_stale_mining_iff_fork : ∃ steps m, MineRun idealEnv steps m ∧
    ((∀ step ∈ steps, step.Settles idealEnv → step.after.Fresh) ↔
      ∀ step ∈ steps, step.Noticed idealEnv) := by
  obtain ⟨step, steps, hrun, -⟩ := of_staleAfter staleAfter_fork
  exact ⟨_, _, hrun, no_stale_mining_iff hrun⟩

/-- With nothing pending, an empty block leaves the generator on the genesis block; and with a
payment pending, so does a longer branch that only `new_longest` looks at. -/
theorem stale_mining :
    (∃ step steps, MineRun idealEnv (step :: steps) step.after ∧ step.Settles idealEnv ∧
      ¬ step.after.Fresh ∧ numPendingKnown step.after.node = 0) ∧
    ∃ step steps, MineRun idealEnv (step :: steps) step.after ∧ step.Settles idealEnv ∧
      ¬ step.after.Fresh ∧ numPendingKnown step.after.node = 1 := by
  have hempty : staleAfter [] (sampleHeader forkOther) = .ok (true, 0) := by decide +kernel
  exact ⟨of_staleAfter hempty, of_staleAfter staleAfter_fork⟩

end Pettycoin
