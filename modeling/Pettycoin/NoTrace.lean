import Pettycoin.Doublespends
import Pettycoin.Registry

/-!
# Pettycoin — no trace of invalid blocks

A complaint takes everything out of `txhash` that names a place in a block of
the subtree, and `recv_shard`, `try_resolve_hashes` and the checks of known
transactions leave blocks with a complaint alone. `recv_tx_in_block` and
`recv_hashes_in_block` do not look: they fill a slot of such a block like any
other, and from then on `recheck_tx` may fail its assertion (`trace_left`). As
long as nothing of that sort arrives, there is no trace of invalid blocks
(`noTrace_of_cleanReach`).

* `Renamed.noTrace` — one change of the places;
* `fillsClean_of_unaccused` — any event is clean where no block has a complaint;
* `noTrace_of_cleanReach` — clean runs;
* `trace_left` — a run that is not.
-/

namespace Pettycoin

open ExceptRules Relation

variable {D : Type} [Digest D] [DecidableEq D] {E : Env D} {s s' : State D} {b : Nat}

-- ---------------------------------------------------------------------------
-- No trace
-- ---------------------------------------------------------------------------

/-- Nothing in `txhash` names a place in a block with a complaint. -/
def NoTrace (s : State D) : Prop :=
  ∀ b shardnum txoff : Nat, Named s b shardnum txoff → (s.blk b).complaint = none

/-- No trace of invalid blocks is left or made. -/
theorem Renamed.noTrace (h : Renamed (· = .unknown) s s') (hr : Registry E s) (hn : NoTrace s) :
    NoTrace s' := by
  intro x i j hnamed
  cases h with
  | same hp hc =>
    have hold : Named s x i j := by
      rw [named_iff_placed] at hnamed ⊢
      simpa only [hp.mem_iff] using hnamed
    rw [hc x (hr.toLedger.provable hold).1]
    exact hn x i j hold
  | invalidated complaint blocks hinv =>
    obtain ⟨te, hte, hloc⟩ := named_iff_placed.mp hnamed
    rw [hinv.placed, List.mem_filter] at hte
    have hout : x ∉ blocks := by
      intro hin
      have := TxhashElem.inBlocks_iff.mpr ⟨x, i, j, hloc, hin⟩
      rw [this] at hte
      exact absurd hte.2 (by simp)
    rw [hinv.blk x, if_neg hout]
    exact hn x i j (named_iff_placed.mpr ⟨te, hte.1, hloc⟩)
  | named b shardnum txoff _ hg hiff hc =>
    rw [hc x]
    rcases (hiff x i j).mp hnamed with ⟨rfl, -, -⟩ | hold
    · exact hg rfl
    · exact hn x i j hold

theorem Trail.noTrace (h : Trail E (· = .unknown) s s') (hr : Registry E s) (hn : NoTrace s) :
    NoTrace s' := by
  induction h with
  | refl => exact hn
  | tail htrail hstep ih =>
    have hr₁ := Trail.registry htrail hr
    exact (hstep.renamed hr₁).2.noTrace hr₁ ih

-- ---------------------------------------------------------------------------
-- Runs
-- ---------------------------------------------------------------------------

/-- The states a node reaches when nothing is ever put into an unknown slot of a block
that has a complaint. -/
inductive CleanReach (E : Env D) : State D → Prop
  | start (sha merkle : D) (nonce2 : Bytes 13) (tailer : BlockTailer) (now : UInt32)
      (opts : FeeOptions) :
    CleanReach E (startNode (genesisBlock sha merkle nonce2 tailer) now opts)
  | step {s s' : State D} (event : NodeEvent D) : CleanReach E s →
    event.FillsClean E (· = .unknown) s → nodeStep E s event = .ok s' → CleanReach E s'

theorem CleanReach.nodeReach (h : CleanReach E s) : NodeReach E s := by
  induction h with
  | start sha merkle nonce2 tailer now opts => exact .start sha merkle nonce2 tailer now opts
  | step event _ _ hstep ih => exact .step event ih hstep

/-- No block has a complaint. -/
def unaccused (s : State D) : Bool :=
  (List.range s.numBlocks).all fun b => (s.blk b).complaint.isNone

/-- The node handles these events, and no block has a complaint when one of them comes. -/
def unaccusedRun (E : Env D) (s : State D) (events : List (NodeEvent D)) : Option (State D) :=
  events.foldlM (fun s event => if unaccused s then (nodeStep E s event).toOption else none) s

/-- Where no block has a complaint, nothing is put into one that has. -/
theorem fillsClean_of_unaccused {g : Slot D → Prop} (h : unaccused s = true)
    (event : NodeEvent D) : event.FillsClean E g s := by
  have hplace : ∀ (pos : Position D) (takes : BlockId → Prop), FillsClean g s pos takes := by
    intro pos takes b hfind _ _
    have hb := (blockFindAny_spec hfind).1
    exact Option.isNone_iff_eq_none.mp (List.all_eq_true.mp h b (List.mem_range.mpr hb))
  cases event with
  | packet peer pkt =>
    cases pkt with
    | txInBlock t => exact hplace _ _
    | hashesInBlock pkt => exact hplace _ _
    | _ => exact trivial
  | _ => exact trivial

/-- A run without complaints, up to the last event, is clean. -/
theorem CleanReach.run (h : CleanReach E s) {events : List (NodeEvent D)}
    (hrun : unaccusedRun E s events = some s') : CleanReach E s' := by
  induction events generalizing s with
  | nil =>
    injection hrun with hrun
    exact hrun ▸ h
  | cons event events ih =>
    unfold unaccusedRun at hrun
    rw [List.foldlM_cons] at hrun
    obtain ⟨s₁, hstep, hrest⟩ := Option.bind_eq_some_iff.mp hrun
    split_ifs at hstep with hnow
    exact ih (.step event h (fillsClean_of_unaccused hnow event) (eq_ok_of_toOption hstep)) hrest

theorem CleanReach.noTrace (h : CleanReach E s) : NoTrace s := by
  induction h with
  | start sha merkle nonce2 tailer now opts =>
    rintro b i j ⟨te, hte, -⟩
    exact absurd hte List.not_mem_nil
  | @step s s' event hreach hg hstep ih =>
    have hr := registry_of_nodeReach hreach.nodeReach
    exact Trail.noTrace ((nodeStep_trail hr.toLedger event hg).of_ok hstep) hr ih

/-- **No trace of invalid blocks.** While nothing is put into an unknown slot of a
block that has a complaint, `txhash` names no place in such a block, and
`recheck_tx` does not fail its assertion. -/
theorem noTrace_of_cleanReach (h : CleanReach E s) :
    NoTrace s ∧ ∀ event : NodeEvent D, event.FillsClean E (· = .unknown) s →
      nodeStep E s event ≠ .error .recheckComplained := by
  have hnone := h.noTrace
  refine ⟨hnone, fun event hg hfail => ?_⟩
  have hr := registry_of_nodeReach h.nodeReach
  have hstopped := (nodeStep_trail hr.toLedger event hg).of_error hfail
  cases hstopped with
  | plain he => exact he
  | put he => exact he
  | recheck htrail hnamed hc =>
    rw [Trail.noTrace htrail hr hnone _ _ _ hnamed] at hc
    exact absurd hc (by simp)

/-- A block whose empty shards have no root, which nothing asks about. -/
def lightBlock (prev : IdealDigest) (depth numPrev : UInt32) (txs : Contents IdealDigest) :
    BlockParts IdealDigest :=
  { sampleBlock prev depth numPrev txs with
    merkles := [rootOf idealCrypto txs, .zero, .zero, .zero]
    merkles_length := rfl }

/-- The block that gets the complaint. -/
def lightFirst : BlockParts IdealDigest := lightBlock .zero 1 4 sampleAlone

/-- A payment, and what spends it. -/
def samplePair : Contents IdealDigest := [(samplePayment, []), (sampleFee, [⟨0, 0, 0, 0⟩])]

/-- The block below holds them. -/
def lightSecond : BlockParts IdealDigest :=
  lightBlock (hashBlock idealCrypto lightFirst) 2 8 samplePair

/-- What spends the payment, and next to its block one that gets a complaint. -/
def sampleComplaint : List (NodeEvent IdealDigest) :=
  [sampleHeader (lightBlock .zero 1 4 samplePair),
    samplePacket (lightBlock .zero 1 4 samplePair) samplePair 1 (sampleFee, [⟨0, 0, 0, 0⟩]),
    sampleHeader lightFirst, samplePacket lightFirst sampleAlone 0 (sampleOnce, [⟨0, 0, 0, 0⟩]),
    .packet ⟨1, false⟩ (.txDoublespend ⟨0, 0, sampleOnce, sampleOnce⟩)]

/-- The payment that comes after it. -/
def samplePaidLate : NodeEvent IdealDigest :=
  samplePacket (lightBlock .zero 1 4 samplePair) samplePair 0 (samplePayment, [])

/-- One block has a complaint, `txhash` names a place in the other. When the payment
comes, `recheck_tx` looks at the one place that is left, and complains of its block. -/
theorem noTrace_of_cleanReach_complaint :
    ∃ s s', CleanReach idealEnv s ∧ Named s 1 0 1 ∧ (s.blk 2).complaint.isSome ∧ NoTrace s ∧
      nodeStep idealEnv s samplePaidLate ≠ .error .recheckComplained ∧
      nodeStep idealEnv s samplePaidLate = .ok s' ∧ (s'.blk 1).complaint.isSome := by
  have hrun : (unaccusedRun idealEnv sampleNode sampleComplaint).any (fun s =>
      (s.txhash.any fun te => decide (te.loc = .inBlock 1 0 1)) &&
        (s.blk 2).complaint.isSome && (s.blk 1).complaint.isNone &&
        decide (blockFindAny s (hashBlock idealCrypto (lightBlock .zero 1 4 samplePair)) = some 1) &&
        (nodeStep idealEnv s samplePaidLate).toOption.any fun s' => (s'.blk 1).complaint.isSome)
      = true := by
    decide +kernel
  obtain ⟨s, hs, hrun⟩ := (Option.any_eq_true _ _).mp hrun
  simp only [Bool.and_eq_true, List.any_eq_true, decide_eq_true_eq, Option.isNone_iff_eq_none]
    at hrun
  obtain ⟨⟨⟨⟨hnamed, hcomplaint⟩, hclean⟩, hfind⟩, hrun⟩ := hrun
  obtain ⟨s', hs', hbad⟩ := (Option.any_eq_true _ _).mp hrun
  have hreach : CleanReach idealEnv s := CleanReach.run (.start _ _ _ _ _ _) hs
  obtain ⟨hnone, hstep⟩ := noTrace_of_cleanReach hreach
  refine ⟨s, s', hreach, hnamed, hcomplaint, hnone, hstep _ fun b hb _ _ => ?_,
    eq_ok_of_toOption hs', hbad⟩
  -- the payment is for the block without a complaint
  obtain rfl : (1 : Nat) = b := Option.some.inj (hfind.symm.trans hb)
  exact hclean

/-- The complaint about the first block, the block below, and what spends in it. -/
def sampleTrace : List (NodeEvent IdealDigest) :=
  [sampleHeader lightFirst, samplePacket lightFirst sampleAlone 0 (sampleOnce, [⟨0, 0, 0, 0⟩]),
    .packet ⟨1, false⟩ (.txDoublespend ⟨0, 0, sampleOnce, sampleOnce⟩),
    sampleHeader lightSecond,
    samplePacket lightSecond samplePair 1 (sampleFee, [⟨0, 0, 0, 0⟩])]

/-- The payment that comes after it. -/
def sampleSpent : NodeEvent IdealDigest :=
  samplePacket lightSecond samplePair 0 (samplePayment, [])

/-- A transaction of a block with a complaint is taken; when the payment it spends
comes, `recheck_tx` fails its assertion. -/
theorem trace_left :
    ∃ s, NodeReach idealEnv s ∧ ¬ NoTrace s ∧
      nodeStep idealEnv s sampleSpent = .error .recheckComplained := by
  have hrun : (nodeRun idealEnv sampleNode sampleTrace >>= fun s =>
      .ok ((s.blk 2).complaint.isSome,
        s.txhash.any fun te => decide (te.loc = .inBlock 2 0 1),
        match nodeStep idealEnv s sampleSpent with
        | .error e => decide (e = .recheckComplained)
        | .ok _ => false))
      = .ok (true, true, true) := by
    decide +kernel
  obtain ⟨s, hs, hchecks⟩ := of_bind_eq_ok hrun
  injection hchecks with hchecks
  simp only [Prod.mk.injEq, List.any_eq_true, decide_eq_true_eq] at hchecks
  obtain ⟨hcomplaint, ⟨te, hte, hloc⟩, hstop⟩ := hchecks
  refine ⟨s, nodeReach_sampleNode.run hs, fun hnone => ?_, ?_⟩
  · rw [hnone 2 0 1 ⟨te, hte, hloc⟩] at hcomplaint
    exact absurd hcomplaint (by decide)
  · cases hstep : nodeStep idealEnv s sampleSpent with
    | error e =>
      rw [hstep] at hstop
      rw [of_decide_eq_true hstop]
    | ok s' =>
      rw [hstep] at hstop
      cases hstop

end Pettycoin
