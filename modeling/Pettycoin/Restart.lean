import Pettycoin.NoTrace
import Mathlib.Data.Multiset.Filter

/-!
# Pettycoin — the loops that start over

`check_resolved_txs` and `recv_tx_doublespend` start over after each complaint,
as the complaint has changed the table they go through. A complaint about a
block that had none takes the places of that block out of `txhash`
(`publishComplaint_placed`), so a turn of `check_resolved_txs` always gets
further: `recheck_tx` has looked at the flag. `recv_tx_doublespend` does not
look, and `publish_complaint` does nothing for a block that has a complaint.
So what has got into `txhash` of such a block keeps the loop going for ever
(`complainDoublespends_stuck`). Without a trace of invalid blocks both loops
end (`restart_loops_end`).

* `publishComplaint_places` — a complaint takes the places of its block away;
* `Restart.places_lt` — every turn leaves fewer of them;
* `complainDoublespends_stuck` — unless the block has a complaint already;
* `restart_loops_end` — the loops in clean runs.
-/

namespace Pettycoin

open ExceptRules Forest

variable {D : Type} [Digest D] [DecidableEq D] {E : Env D} {s s₁ s' : State D} {b : Nat}

-- ---------------------------------------------------------------------------
-- What a complaint takes away
-- ---------------------------------------------------------------------------

omit [Digest D] [DecidableEq D] in
theorem mem_subtree_self (hb : b < s.numBlocks) : b ∈ subtree s b := by
  unfold subtree
  obtain ⟨n, hn⟩ := Nat.exists_eq_succ_of_ne_zero (Nat.ne_of_gt (Nat.zero_lt_of_lt hb))
  rw [hn, preorder, if_pos rfl]
  exact List.mem_cons_self

/-- The places `txhash` names, without their order. -/
def places (s : State D) : Multiset (TxhashElem D) := (placed s : Multiset (TxhashElem D))

/-- A complaint about a block that had none takes away what names a place in it. -/
theorem publishComplaint_places (hr : Registry E s) {shardnum txoff : Nat}
    (hnamed : Named s b shardnum txoff) (hclean : (s.blk b).complaint = none)
    {complaint : Complaint D} {origin : Option Nat}
    (h : publishComplaint E s b complaint origin = .ok s') : places s' < places s := by
  unfold publishComplaint at h
  rw [if_neg (by simp [hclean])] at h
  obtain ⟨s₁, hall, h⟩ := of_bind_eq_ok h
  obtain ⟨s₂, hrecheck, h⟩ := of_bind_eq_ok h
  obtain ⟨s₃, hptrs, h⟩ := of_bind_eq_ok h
  injection h with h
  subst h
  have hinv := hr.toLedger.complaintOnAll_spec hr.once hall
  have hminor : Minor s₁ s₃ := by
    have h₂ := ((recheckPendingTxs_calm (E := E) (.refl s₁)).of_ok hrecheck).toMinor
    exact h₂.quiet ((updateBlockPtrsInvalidated_quiet (.refl s₂) b).of_ok hptrs)
  have hperm : (placed s₃).Perm ((placed s).filter fun te => !te.inBlocks (subtree s b)) :=
    hinv.placed ▸ hminor.placed
  have hle : places s₃ ≤ places s :=
    Multiset.coe_le.mpr (hperm.subperm.trans List.filter_sublist.subperm)
  refine lt_of_le_of_ne hle fun heq => ?_
  -- The element that names the place has gone.
  obtain ⟨te, hte, hloc⟩ := named_iff_placed.mp hnamed
  have hb := (hr.toLedger.provable hnamed).1
  have hin : te.inBlocks (subtree s b) = true :=
    TxhashElem.inBlocks_iff.mpr ⟨b, shardnum, txoff, hloc, mem_subtree_self hb⟩
  have hkept := hperm.mem_iff.mp ((Multiset.coe_eq_coe.mp heq).mem_iff.mpr hte)
  rw [List.mem_filter, hin] at hkept
  exact absurd hkept.2 (by simp)

-- ---------------------------------------------------------------------------
-- A turn of `check_resolved_txs`
-- ---------------------------------------------------------------------------

/-- There was a complaint about a block without one, that `txhash` named a place in. -/
def Complains (E : Env D) (s s' : State D) : Prop :=
  ∃ (s₁ : State D) (b shardnum txoff : Nat) (complaint : Complaint D),
    Still s s₁ ∧ Named s₁ b shardnum txoff ∧ (s₁.blk b).complaint = none ∧
      publishComplaint E s₁ b complaint none = .ok s'

theorem Complains.before (hstill : Still s s₁) (h : Complains E s₁ s') : Complains E s s' := by
  obtain ⟨s₂, b, i, j, complaint, hstill₂, hrest⟩ := h
  exact ⟨s₂, b, i, j, complaint, hstill.trans hstill₂, hrest⟩

theorem complainAboutInputs_false {t : ProvenTx D} {ierr : InputEcode} {bad : Nat}
    (hne : ierr ≠ .doublespend) (h : complainAboutInputs E s b t ierr bad = .ok (s', false)) :
    ∃ complaint, publishComplaint E s b complaint none = .ok s' := by
  unfold complainAboutInputs at h
  cases ierr with
  | ok => simp at h
  | unknown =>
    obtain ⟨_, -, h⟩ := of_bind_eq_ok h
    split_ifs at h <;> simp at h
  | bad =>
    obtain ⟨_, -, h⟩ := of_bind_eq_ok h
    obtain ⟨_, -, h⟩ := of_bind_eq_ok h
    obtain ⟨s₁, hcomplain, h⟩ := of_bind_eq_ok h
    injection h with h
    injection h with h _
    subst h
    unfold complainBadInput at hcomplain
    obtain ⟨_, -, hpublish⟩ := of_bind_eq_ok hcomplain
    exact ⟨_, hpublish⟩
  | badAmount =>
    obtain ⟨_, -, h⟩ := of_bind_eq_ok h
    obtain ⟨s₁, hcomplain, h⟩ := of_bind_eq_ok h
    injection h with h
    injection h with h _
    subst h
    exact ⟨_, hcomplain⟩
  | doublespend => exact absurd rfl hne
  | claimBad =>
    obtain ⟨_, -, h⟩ := of_bind_eq_ok h
    obtain ⟨_, -, h⟩ := of_bind_eq_ok h
    obtain ⟨s₁, hcomplain, h⟩ := of_bind_eq_ok h
    injection h with h
    injection h with h _
    subst h
    unfold complainBadClaim at hcomplain
    obtain ⟨_, -, hpublish⟩ := of_bind_eq_ok hcomplain
    exact ⟨_, hpublish⟩

theorem complainAboutRefs_false {t : ProvenTx D} {ierr : InputEcode}
    (h : complainAboutRefs E s b t ierr = .ok (s', false)) :
    ∃ complaint, publishComplaint E s b complaint none = .ok s' := by
  unfold complainAboutRefs at h
  obtain ⟨⟨rerr, bad⟩, -, h⟩ := of_bind_eq_ok h
  dsimp only at h
  split at h
  · simp at h
  · simp at h
  · split_ifs at h
    · simp at h
    · obtain ⟨_, -, h⟩ := of_bind_eq_ok h
      simp at h
  · obtain ⟨s₁, hcomplain, h⟩ := of_bind_eq_ok h
    injection h with h
    injection h with h _
    subst h
    unfold complainBadInputRef at hcomplain
    obtain ⟨_, -, hcomplain⟩ := of_bind_eq_ok hcomplain
    obtain ⟨_, -, hpublish⟩ := of_bind_eq_ok hcomplain
    exact ⟨_, hpublish⟩

/-- When `check_tx_inputs_and_refs` returns false, it has complained. -/
theorem checkTxInputsAndRefs_false {t : ProvenTx D}
    (h : checkTxInputsAndRefs E s b t = .ok (s', false)) :
    ∃ s₁ complaint, Still s s₁ ∧ publishComplaint E s₁ b complaint none = .ok s' := by
  unfold checkTxInputsAndRefs at h
  obtain ⟨⟨ierr, bad⟩, hinputs, h⟩ := of_bind_eq_ok h
  obtain ⟨⟨s₁, valid⟩, habout, h⟩ := of_bind_eq_ok h
  have hne := checkTxInputs_ne_doublespend hinputs
  cases valid with
  | false =>
    simp only [Bool.false_eq_true, if_false] at h
    injection h with h
    injection h with h _
    subst h
    obtain ⟨complaint, hpublish⟩ := complainAboutInputs_false hne habout
    exact ⟨s, complaint, .refl s, hpublish⟩
  | true =>
    simp only [if_true] at h
    obtain ⟨complaint, hpublish⟩ := complainAboutRefs_false h
    exact ⟨s₁, complaint, (complainAboutInputs_true hne habout).2, hpublish⟩

/-- When it returns true, it has left the stores alone. -/
theorem checkTxInputsAndRefs_true {t : ProvenTx D}
    (h : checkTxInputsAndRefs E s b t = .ok (s', true)) : Still s s' := by
  unfold checkTxInputsAndRefs at h
  obtain ⟨⟨ierr, bad⟩, hinputs, h⟩ := of_bind_eq_ok h
  obtain ⟨⟨s₁, valid⟩, habout, h⟩ := of_bind_eq_ok h
  cases valid with
  | false => simp at h
  | true =>
    simp only [if_true] at h
    have hstill := (complainAboutInputs_true (checkTxInputs_ne_doublespend hinputs) habout).2
    refine hstill.trans ?_
    unfold complainAboutRefs at h
    obtain ⟨⟨rerr, bad⟩, -, h⟩ := of_bind_eq_ok h
    dsimp only at h
    split at h
    · injection h with h
      injection h with h _
      exact h ▸ .refl s₁
    · simp at h
    · split_ifs at h
      · injection h with h
        injection h with h _
        exact h ▸ .refl s₁
      · obtain ⟨_, -, h⟩ := of_bind_eq_ok h
        injection h with h
        injection h with h _
        exact h ▸ (Still.refl s₁).emit _
    · obtain ⟨_, -, h⟩ := of_bind_eq_ok h
      simp at h

/-- `recheck_tx` leaves the stores alone or complains. -/
theorem recheckElems_spec (elems : List (TxhashElem D)) (hmem : ∀ te ∈ elems, te ∈ s.txhash)
    {valid : Bool} (h : recheckElems E elems s = .ok (s', valid)) :
    if valid then Still s s' else Complains E s s' := by
  induction elems generalizing s with
  | nil =>
    injection h with h
    injection h with h hvalid
    subst hvalid
    exact h ▸ .refl s
  | cons te rest ih =>
    -- While nothing is found wrong, the elements still to come stay in `txhash`.
    have hrest : ∀ s₁, Still s s₁ → recheckElems E rest s₁ = .ok (s', valid) →
        if valid then Still s s' else Complains E s s' := by
      intro s₁ hstill hloop
      have hgoes := ih (s := s₁) (fun te' hte' => by
        rw [hstill.txhash]
        exact hmem te' (List.mem_cons_of_mem te hte')) hloop
      cases valid with
      | true => exact hstill.trans hgoes
      | false => exact hgoes.before hstill
    unfold recheckElems at h
    split at h
    · exact hrest _ (Still.refl s).setNeedsRecheck h
    · rename_i b i j hloc
      obtain ⟨_, hassert, h⟩ := of_bind_eq_ok h
      have hclean : (s.blk b).complaint = none := by
        cases hc : (s.blk b).complaint with
        | none => rfl
        | some complaint => simp [hc, assert] at hassert
      split_ifs at h
      · exact hrest s (.refl s) h
      · obtain ⟨t, -, h⟩ := of_bind_eq_ok h
        obtain ⟨⟨s₁, valid₁⟩, hcheck, h⟩ := of_bind_eq_ok h
        cases valid₁ with
        | true => exact hrest s₁ (checkTxInputsAndRefs_true hcheck) (by simpa using h)
        | false =>
          simp only [Bool.false_eq_true, if_false] at h
          injection h with h
          injection h with h hvalid
          subst h hvalid
          obtain ⟨s₂, complaint, hstill, hpublish⟩ := checkTxInputsAndRefs_false hcheck
          refine ⟨s₂, b, i, j, complaint, hstill, ⟨te, ?_, hloc⟩, ?_, hpublish⟩
          · rw [hstill.txhash]
            exact hmem te List.mem_cons_self
          · rw [← hclean]
            exact hstill.complaint_eq b

theorem recheckSpenders_false (elems : List (InputhashElem D))
    (h : recheckSpenders E elems s = .ok (s', false)) : Complains E s s' := by
  induction elems generalizing s with
  | nil => simp [recheckSpenders] at h
  | cons ie rest ih =>
    unfold recheckSpenders recheckTx at h
    obtain ⟨⟨s₁, valid⟩, hrecheck, h⟩ := of_bind_eq_ok h
    have hspec := recheckElems_spec _ (fun te hte => (List.mem_filter.mp hte).1) hrecheck
    cases valid with
    | true => exact (ih (by simpa using h)).before hspec
    | false =>
      simp only [Bool.false_eq_true, if_false] at h
      injection h with h
      injection h with h _
      exact h ▸ hspec

-- ---------------------------------------------------------------------------
-- A turn of `recv_tx_doublespend`
-- ---------------------------------------------------------------------------

/-- The block that is blamed is that of a place in `txhash`. -/
theorem named_of_doublespendCall {C : Crypto D} {pkt : PktTxDoublespend D} {one two : Spend D}
    (h : doublespendCall C s pkt = .ok (some (one, two))) :
    ∃ shardnum txoff, Named s two.block shardnum txoff := by
  unfold doublespendCall at h
  split at h
  · simp at h
  · rename_i one' two' hnext
    obtain ⟨_, -, h⟩ := of_bind_eq_ok h
    obtain ⟨spend, hspend, h⟩ := of_bind_eq_ok h
    simp only [Except.ok.injEq, Option.some.injEq, Prod.mk.injEq] at h
    obtain ⟨-, rfl⟩ := h
    unfold spendOf at hspend
    obtain ⟨_, -, hspend⟩ := of_bind_eq_ok hspend
    injection hspend with hspend
    subst hspend
    exact ⟨_, _, (named_of_nextSpends hnext).2⟩

theorem complainDoublespend_publishes {one two : Spend D}
    (h : complainDoublespend E s one two = .ok s') :
    ∃ complaint, publishComplaint E s two.block complaint none = .ok s' := by
  unfold complainDoublespend at h
  obtain ⟨_, -, h⟩ := of_bind_eq_ok h
  obtain ⟨_, -, h⟩ := of_bind_eq_ok h
  obtain ⟨_, -, hpublish⟩ := of_bind_eq_ok h
  exact ⟨_, hpublish⟩

/-- If the block has a complaint already, the loop starts over for ever. -/
theorem complainDoublespends_stuck {pkt : PktTxDoublespend D} {one two : Spend D}
    (hcall : doublespendCall E.crypto s pkt = .ok (some (one, two)))
    (hcomplaint : (s.blk two.block).complaint.isSome)
    (hcomplain : complainDoublespend E s one two = .ok s') (fuel : Nat) :
    complainDoublespends E pkt fuel s = .error .diverges := by
  obtain ⟨complaint, hpublish⟩ := complainDoublespend_publishes hcomplain
  unfold publishComplaint at hpublish
  rw [if_pos hcomplaint] at hpublish
  injection hpublish with hsame
  subst hsame
  induction fuel with
  | zero => rfl
  | succ fuel ih =>
    unfold complainDoublespends
    rw [hcall, ok_bind]
    dsimp only
    rw [hcomplain, ok_bind]
    exact ih

/-- A loop that does not end keeps the node from ever doing anything else. -/
theorem nodeStep_diverges (peer : Peer) {pkt : PktTxDoublespend D}
    (hcheck : checkPktTxDoublespend E.crypto s pkt = .none) (hdrop : dropBoth E s pkt = .ok s₁)
    (hstuck : complainDoublespends E pkt (s₁.txhash.length + 1) s₁ = .error .diverges) :
    nodeStep E s (.packet peer (.txDoublespend pkt)) = .error .diverges := by
  have hrecv : recvPacket E s peer (.txDoublespend pkt) = .error .diverges := by
    show recvTxDoublespend E s pkt = .error .diverges
    unfold recvTxDoublespend
    dsimp only
    rw [if_neg (not_not.mpr hcheck), hdrop, ok_bind, hstuck]
    rfl
  unfold nodeStep pktIn
  dsimp only
  rw [hrecv]
  rfl

-- ---------------------------------------------------------------------------
-- Both loops
-- ---------------------------------------------------------------------------

theorem Complains.places_lt (hr : Registry E s) (h : Complains E s s') : places s' < places s := by
  obtain ⟨s₁, b, shardnum, txoff, complaint, hstill, hnamed, hclean, hpublish⟩ := h
  have hr₁ := Trail.registry (.single (.quiet (g := fun _ => False) hstill.toQuiet)) hr
  have hsame : places s₁ = places s := by
    unfold places placed
    rw [hstill.txhash]
  exact hsame ▸ publishComplaint_places hr₁ hnamed hclean hpublish

/-- Without a trace of invalid blocks each turn takes something away. -/
theorem Restart.places_lt (hr : Registry E s) (hn : NoTrace s) (h : Restart E s s') :
    places s' < places s := by
  cases h with
  | recheck elems hfalse => exact (recheckSpenders_false elems hfalse).places_lt hr
  | doublespend pkt one two hcall hcomplain =>
    obtain ⟨shardnum, txoff, hnamed⟩ := named_of_doublespendCall hcall
    obtain ⟨complaint, hpublish⟩ := complainDoublespend_publishes hcomplain
    exact publishComplaint_places hr hnamed (hn _ _ _ hnamed) hpublish

/-- **The loops end.** While nothing is put into an unknown slot of a block that has a
complaint, each turn of a loop takes away places `txhash` names and adds none, and no event
keeps a loop going for ever. -/
theorem restart_loops_end (h : CleanReach E s) (event : NodeEvent D)
    (hg : event.FillsClean E (· = .unknown) s) :
    (∀ s₁ s₂, Trail E (· = .unknown) s s₁ → Restart E s₁ s₂ → places s₂ < places s₁) ∧
      nodeStep E s event ≠ .error .diverges := by
  have hr := registry_of_nodeReach h.nodeReach
  have hturn : ∀ s₁ s₂, Trail E (· = .unknown) s s₁ → Restart E s₁ s₂ →
      places s₂ < places s₁ := by
    intro s₁ s₂ htrail hrestart
    exact hrestart.places_lt (Trail.registry htrail hr)
      (Trail.noTrace htrail hr h.noTrace)
  refine ⟨hturn, fun hfail => ?_⟩
  have hstopped := (nodeStep_trail hr.toLedger event hg).of_error hfail
  cases hstopped with
  | plain he => exact he
  | put he => exact he
  | stuck htrail hrestart hle =>
    exact absurd (Multiset.card_lt_card (hturn _ _ htrail hrestart)) (not_lt.mpr hle)

/-- The doublespend packet that names one transaction twice. -/
def sampleWithItself (tx : Tx IdealDigest) : PktTxDoublespend IdealDigest := ⟨0, 0, tx, tx⟩

/-- A block with a transaction that spends one output twice. The one turn of the loop takes it
out of `txhash`. -/
theorem restart_loops_end_first : ∃ s s' : State IdealDigest, CleanReach idealEnv s ∧
    Restart idealEnv s s' ∧ places s' < places s ∧
      nodeStep idealEnv s (.packet ⟨1, false⟩ (.txDoublespend (sampleWithItself sampleOnce)))
        ≠ .error .diverges := by
  have hrun : (nodeStep idealEnv sampleNode (sampleHeader lightFirst)).toOption.any (fun s₁ =>
      (List.range s₁.numBlocks).all (fun b => (s₁.blk b).complaint.isNone) &&
        (nodeStep idealEnv s₁ (samplePacket lightFirst sampleAlone 0
          (sampleOnce, [⟨0, 0, 0, 0⟩]))).toOption.any fun s =>
            (doublespendCall idealCrypto s (sampleWithItself sampleOnce)).toOption.any fun call =>
              call.any fun spends =>
                (complainDoublespend idealEnv s spends.1 spends.2).toOption.isSome)
      = true := by
    decide +kernel
  obtain ⟨s₁, hs₁, hrun⟩ := (Option.any_eq_true _ _).mp hrun
  rw [Bool.and_eq_true, List.all_eq_true] at hrun
  obtain ⟨hclean, hrun⟩ := hrun
  obtain ⟨s, hs, hrun⟩ := (Option.any_eq_true _ _).mp hrun
  obtain ⟨call, hcall, hrun⟩ := (Option.any_eq_true _ _).mp hrun
  obtain ⟨⟨one, two⟩, rfl, hrun⟩ := (Option.any_eq_true _ _).mp hrun
  obtain ⟨s', hs'⟩ := Option.isSome_iff_exists.mp hrun
  have hfirst : CleanReach idealEnv s₁ :=
    .step (sampleHeader lightFirst) (.start _ _ _ _ _ _) trivial (eq_ok_of_toOption hs₁)
  have hreach : CleanReach idealEnv s := by
    refine .step _ hfirst ?_ (eq_ok_of_toOption hs)
    intro b hfind _ _
    exact Option.isNone_iff_eq_none.mp
      (hclean b (List.mem_range.mpr (blockFindAny_spec hfind).1))
  have hrestart : Restart idealEnv s s' :=
    .doublespend _ one two (eq_ok_of_toOption hcall) (eq_ok_of_toOption hs')
  obtain ⟨hturn, hends⟩ := restart_loops_end hreach
    (.packet ⟨1, false⟩ (.txDoublespend (sampleWithItself sampleOnce))) trivial
  exact ⟨s, s', hreach, hrestart, hturn s s' .refl hrestart, hends⟩

/-- What got into a block with a complaint keeps the loop going, however often it starts over. -/
theorem restart_goes_on : ∃ s s₁ : State IdealDigest, NodeReach idealEnv s ∧
    dropBoth idealEnv s (sampleWithItself sampleFee) = .ok s₁ ∧
      (∀ fuel, complainDoublespends idealEnv (sampleWithItself sampleFee) fuel s₁
        = .error .diverges) ∧
      nodeStep idealEnv s (.packet ⟨1, false⟩ (.txDoublespend (sampleWithItself sampleFee)))
        = .error .diverges := by
  have hrun : (nodeRun idealEnv sampleNode sampleTrace).toOption.any (fun s =>
      decide (checkPktTxDoublespend idealCrypto s (sampleWithItself sampleFee) = .none) &&
        (dropBoth idealEnv s (sampleWithItself sampleFee)).toOption.any fun s₁ =>
          (doublespendCall idealCrypto s₁ (sampleWithItself sampleFee)).toOption.any fun call =>
            call.any fun spends => (s₁.blk spends.2.block).complaint.isSome &&
              (complainDoublespend idealEnv s₁ spends.1 spends.2).toOption.isSome)
      = true := by
    decide +kernel
  obtain ⟨s, hs, hrun⟩ := (Option.any_eq_true _ _).mp hrun
  rw [Bool.and_eq_true, decide_eq_true_eq] at hrun
  obtain ⟨hcheck, hrun⟩ := hrun
  obtain ⟨s₁, hdrop, hrun⟩ := (Option.any_eq_true _ _).mp hrun
  obtain ⟨call, hcall, hrun⟩ := (Option.any_eq_true _ _).mp hrun
  obtain ⟨⟨one, two⟩, rfl, hrun⟩ := (Option.any_eq_true _ _).mp hrun
  obtain ⟨hcomplaint, hcomplain⟩ := Bool.and_eq_true_iff.mp hrun
  obtain ⟨s', hs'⟩ := Option.isSome_iff_exists.mp hcomplain
  have hstuck := complainDoublespends_stuck (E := idealEnv) (eq_ok_of_toOption hcall) hcomplaint
    (eq_ok_of_toOption hs')
  exact ⟨s, s₁, nodeReach_sampleNode.run (eq_ok_of_toOption hs), eq_ok_of_toOption hdrop, hstuck,
    nodeStep_diverges _ hcheck (eq_ok_of_toOption hdrop) (hstuck _)⟩

end Pettycoin
