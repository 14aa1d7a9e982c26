import Pettycoin.DropPending

/-!
# Pettycoin — what `inputhash` records

Every element of `inputhash` was put there for an input of the transaction it
names (`inputsRecorded_of_nodeReach`). What a lookup of an output finds are hashes
of transactions that spend it, then.

* `recordInputs_recorded` — the inputs of a transaction are recorded;
* `InputsRecorded.step` — whatever a step deletes or adds;
* `inputsRecorded_of_nodeReach` — over every run of the node.
-/

namespace Pettycoin

open ExceptRules

variable {D : Type} [Digest D] {E : Env D} {s₀ s s' : State D}

/-- The element is of an input of a transaction with the hash it names. -/
def InputhashElem.Recorded (E : Env D) (ie : InputhashElem D) : Prop :=
  ∃ tx : Tx D, hashTx E.crypto tx = ie.usedBy ∧
    ∃ inp ∈ txInputs tx, inp.input = ie.tx ∧ inp.output = ie.outputNum

/-- So are all elements of `inputhash`. -/
def InputsRecorded (E : Env D) (s : State D) : Prop := ∀ ie ∈ s.inputhash, ie.Recorded E

theorem InputsRecorded.congr (h : InputsRecorded E s) (hi : s'.inputhash = s.inputhash) :
    InputsRecorded E s' := by
  intro ie hie
  rw [hi] at hie
  exact h ie hie

-- ---------------------------------------------------------------------------
-- The hash tables
-- ---------------------------------------------------------------------------

theorem inputhashAddTx_recorded (h : InputsRecorded E s) (onPending : Bool) (tx : Tx D) :
    InputsRecorded E (inputhashAddTx E s onPending tx) := by
  have key : ∀ (inps : List (Input D)) (s : State D), (∀ inp ∈ inps, inp ∈ txInputs tx) →
      InputsRecorded E s → InputsRecorded E (inps.foldl
        (fun s inp =>
          { s with inputhash := E.inputLayout.add s.inputhash
                    ⟨inp.input, inp.output, hashTx E.crypto tx, onPending⟩ }) s) := by
    intro inps
    induction inps with
    | nil => exact fun s _ hs => hs
    | cons inp inps ih =>
      intro s hsub hs
      refine ih _ (fun inp' hinp' => hsub inp' (List.mem_cons_of_mem _ hinp')) fun ie hie => ?_
      rcases List.mem_cons.mp ((E.inputLayout.add_perm _ _).mem_iff.mp hie) with rfl | hold
      · exact ⟨tx, rfl, inp, hsub inp List.mem_cons_self, rfl, rfl⟩
      · exact hs ie hold
  unfold inputhashAddTx
  exact key _ s (fun _ hinp => hinp) h

variable [DecidableEq D]

theorem inputhashDelTx_recorded (h : InputsRecorded E s) (tx : Tx D) :
    InputsRecorded E (inputhashDelTx E s tx) := by
  have key : ∀ (inps : List (Input D)) (s : State D), InputsRecorded E s →
      InputsRecorded E (inps.foldl
        (fun s inp =>
          { s with inputhash := s.inputhash.eraseP fun ie =>
                    ie.tx == inp.input && ie.outputNum == inp.output
                      && ie.usedBy == hashTx E.crypto tx }) s) := by
    intro inps
    induction inps with
    | nil => exact fun s hs => hs
    | cons inp inps ih => exact fun s hs => ih _ fun ie hie => hs ie (List.mem_of_mem_eraseP hie)
  unfold inputhashDelTx
  exact key _ s h

theorem recordInputs_recorded (h : InputsRecorded E s) (onPending : Bool) (tx : Tx D) :
    InputsRecorded E (recordInputs E s onPending tx) := by
  unfold recordInputs
  split_ifs
  · exact inputhashAddTx_recorded h onPending tx
  · exact h

theorem forgetInputs_recorded (h : InputsRecorded E s) (tx : Tx D) :
    InputsRecorded E (forgetInputs E s tx) := by
  unfold forgetInputs
  split_ifs
  · exact inputhashDelTx_recorded h tx
  · exact h

theorem removeTxFromHashes_recorded (h : InputsRecorded E s) {b shardnum txoff : Nat}
    (hs : removeTxFromHashes E s b shardnum txoff = .ok s') : InputsRecorded E s' := by
  have hdel : ∀ sha : D, InputsRecorded E (txhashDelTx s (.inBlock b shardnum txoff) sha) :=
    fun _ => h.congr rfl
  unfold removeTxFromHashes at hs
  split at hs
  · obtain rfl := Except.ok.inj hs
    exact forgetInputs_recorded (hdel _) _
  · obtain rfl := Except.ok.inj hs
    exact hdel _
  · exact absurd hs (by simp)

theorem removePendingTxFromHashes_recorded (h : InputsRecorded E s) (tx : Tx D) :
    InputsRecorded E (removePendingTxFromHashes E s tx) := by
  have hdel : InputsRecorded E (txhashDelTx s (.pending tx) (hashTx E.crypto tx)) := h.congr rfl
  exact forgetInputs_recorded hdel tx

theorem addPendingTxToHashes_recorded (h : InputsRecorded E s) (tx : Tx D) :
    Keeps (addPendingTxToHashes E s tx) (InputsRecorded E) := by
  have hadd : InputsRecorded E (txhashAddTx E (recordInputs E s true tx) (.pending tx)
      (hashTx E.crypto tx)) := (recordInputs_recorded h true tx).congr rfl
  unfold addPendingTxToHashes
  exact (keeps_any _).bind fun _ _ => hadd

-- ---------------------------------------------------------------------------
-- pending.c and complain.c
-- ---------------------------------------------------------------------------

theorem addPendingTx_recorded (h : InputsRecorded E s) {tx : Tx D} {r : AddPending}
    (hs : addPendingTx E s tx = .ok (s', r)) : InputsRecorded E s' := by
  have hhashes : ∀ s₁ : State D, InputsRecorded E s₁ → ∀ a : AddPending,
      Keeps (do
        let s₂ ← addPendingTxToHashes E s₁ tx
        Except.ok (s₂, a)) fun r => InputsRecorded E r.1 :=
    fun s₁ h₁ _ => (addPendingTxToHashes_recorded h₁ tx).bind fun _ h₂ => h₂
  have hinsert : Keeps (insertPendingTx E s tx) fun r => InputsRecorded E r.1 := by
    unfold insertPendingTx
    dsimp only
    split_ifs
    · exact h.congr rfl
    · refine (keeps_any _).bind fun _ _ => ?_
      split
      · exact h
      · exact h.congr rfl
  have hkeep : ∀ (ierr : InputEcode) (bad : Nat),
      Keeps (keepPendingTx E s tx ierr bad) fun r => InputsRecorded E r.1 := by
    intro ierr bad
    unfold keepPendingTx
    dsimp only
    split_ifs
    · exact h
    · exact hhashes (addToUnknownPending s tx) (h.congr rfl) _
    · refine hinsert.bind fun r hr => ?_
      obtain ⟨s₁, kept⟩ := r
      dsimp only at hr ⊢
      split_ifs
      · exact hr
      · exact hhashes _ hr _
  have hadd : Keeps (addPendingTx E s tx) fun r => InputsRecorded E r.1 := by
    unfold addPendingTx
    dsimp only
    split_ifs
    · exact h
    · exact h
    · refine (keeps_any _).bind fun r _ => ?_
      obtain ⟨ierr, bad⟩ := r
      dsimp only
      split
      · exact hkeep _ bad
      · exact hkeep _ bad
      · exact h
  exact hadd.of_ok hs

theorem recheckPendingTxs_recorded (h : InputsRecorded E s)
    (hs : recheckPendingTxs E s = .ok s') : InputsRecorded E s' := by
  have hremoved : ∀ (txs : List (Tx D)) (s : State D), InputsRecorded E s →
      InputsRecorded E (txs.foldl (removePendingTxFromHashes E) s) := by
    intro txs
    induction txs with
    | nil => exact fun s h => h
    | cons tx txs ih => exact fun s h => ih _ (removePendingTxFromHashes_recorded h tx)
  have hflag : InputsRecorded E (s.modPending fun p => { p with needsRecheck := false }) :=
    h.congr rfl
  unfold recheckPendingTxs at hs
  dsimp only at hs
  split_ifs at hs
  · exact Except.ok.inj hs ▸ h
  · exact Except.ok.inj hs ▸ hflag
  · obtain ⟨s₁, h₁, hs⟩ := of_bind_eq_ok hs
    obtain rfl := Except.ok.inj hs
    have hall : InputsRecorded E s₁ := by
      refine foldlM_preserves (P := InputsRecorded E) (fun s₁ s₂ tx _ h₁ h₂ => ?_) ?_ h₁
      · obtain ⟨⟨s₃, r⟩, h₃, h₂⟩ := of_bind_eq_ok h₂
        exact Except.ok.inj h₂ ▸ addPendingTx_recorded h₁ h₃
      · exact fun ie hie => hremoved _ _ hflag ie (List.mem_of_mem_filter hie)
    exact hall.congr rfl

theorem dropPendingTx_recorded (h : InputsRecorded E s) {tx : Tx D}
    (hs : dropPendingTx E s tx = .ok s') : InputsRecorded E s' := by
  unfold dropPendingTx at hs
  dsimp only at hs
  split_ifs at hs
  · exact Except.ok.inj hs ▸ h
  · obtain rfl := Except.ok.inj hs
    exact h.congr rfl
  · obtain rfl := Except.ok.inj hs
    exact h.congr rfl

theorem complaintOn_recorded (h : InputsRecorded E s) {complaint : Complaint D} {b : BlockId}
    (hs : complaintOn E complaint s b = .ok s') : InputsRecorded E s' := by
  unfold complaintOn at hs
  dsimp only at hs
  refine foldlM_preserves (P := InputsRecorded E)
    (fun s₁ s₂ place _ h₁ h₂ => removeTxFromHashes_recorded h₁ h₂) ?_ hs
  rw [blockToPending_eq]
  exact h.congr rfl

-- ---------------------------------------------------------------------------
-- Runs
-- ---------------------------------------------------------------------------

theorem InputsRecorded.step {g : Slot D → Prop} (h : InputsRecorded E s) (hs : Step E g s s') :
    InputsRecorded E s' := by
  cases hs with
  | quiet hq => exact h.congr hq.inputhash
  | recheckPending hs => exact recheckPendingTxs_recorded h hs
  | addPending tx r _ hs => exact addPendingTx_recorded h hs
  | dropPending tx hs => exact dropPendingTx_recorded h hs
  | invalidate b complaint _ _ _ hs =>
    rw [complaintOnAll_eq_foldlM] at hs
    exact foldlM_preserves (P := InputsRecorded E) (fun _ _ _ _ h₁ h₂ => complaintOn_recorded h₁ h₂)
      h hs
  | fillUnknown b shardnum txoff tx refs => exact (recordInputs_recorded h false tx).congr rfl
  | fillHash b shardnum txoff tx refs =>
    have hcount : InputsRecorded E (s.modShard b shardnum fun shard =>
        { shard with hashcount := shard.hashcount - 1 }) := h.congr rfl
    exact (recordInputs_recorded hcount false tx).congr rfl
  | setHash b shardnum txoff e => exact h.congr rfl
  | storeProofs b shardnum f => exact h.congr rfl
  | sew prev nb _ => exact h.congr (sewBlock_same s prev nb).2.2.2

/-- **Every element of `inputhash` is of a spend.** -/
theorem inputsRecorded_of_nodeReach (h : NodeReach E s) : InputsRecorded E s :=
  h.preserves (P := InputsRecorded E) (fun _ _ _ _ _ _ _ hie => absurd hie List.not_mem_nil)
    fun _ _ _ hstep hs => hs.step hstep

end Pettycoin
