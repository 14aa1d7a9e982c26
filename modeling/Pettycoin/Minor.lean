import Pettycoin.Frame

/-!
# Pettycoin — what leaves blocks and complaints alone

The heads move and pending transactions come and go without a change to the
blocks, their complaints or the places that `txhash` names (`Minor`). The
functions of `tx_in_hashes.c` and `pending.c` leave the heads where they are, too
(`Calm`), and each gets one lemma; what else the node does is made of these, of
complaints, and of filling a slot.

* `Minor.trans`, `Calm.trans` — calls one after the other;
* `Minor.quiet` — the functions of `chain.c`, which move the heads;
* `recheckPendingTxs_calm`, `addPendingTx_calm` — the calls that touch the pending
  transactions.
-/

namespace Pettycoin

open ExceptRules Forest

variable {D : Type} {E : Env D} {s₀ s s' : State D} {b : Nat}

-- ---------------------------------------------------------------------------
-- Minor changes
-- ---------------------------------------------------------------------------

/-- The element is of a place in a block. -/
def TxhashElem.isInBlock (te : TxhashElem D) : Bool :=
  match te.loc with
  | .inBlock _ _ _ => true
  | .pending _ => false

/-- The elements of `txhash` that name places. -/
def placed (s : State D) : List (TxhashElem D) := s.txhash.filter TxhashElem.isInBlock

theorem mem_placed {te : TxhashElem D} :
    te ∈ placed s ↔ te ∈ s.txhash ∧ te.isInBlock = true := List.mem_filter

/-- The blocks, their complaints and the places recorded are the same. -/
structure Minor (s₀ s : State D) : Prop extends SameBlocks s₀ s where
  placed : (placed s).Perm (placed s₀)
  flags : FlagsSound s₀ → FlagsSound s

theorem Minor.refl (s : State D) : Minor s s := ⟨.refl s, List.Perm.refl _, id⟩

theorem Minor.trans (h : Minor s₀ s) (h' : Minor s s') : Minor s₀ s' :=
  ⟨h.toSameBlocks.trans h'.toSameBlocks, h'.placed.trans h.placed, fun hf => h'.flags (h.flags hf)⟩

theorem Minor.mem_placed (h : Minor s₀ s) {te : TxhashElem D} :
    te ∈ Pettycoin.placed s ↔ te ∈ Pettycoin.placed s₀ := h.placed.mem_iff

/-- Changing what else `txhash` holds. -/
theorem minor_of_placed (hn : s'.numBlocks = s.numBlocks) (hb : s'.blk = s.blk)
    (ht : (Pettycoin.placed s').Perm (Pettycoin.placed s)) : Minor s s' := by
  exact ⟨⟨hn, fun x => by rw [hb]⟩, ht, flagsSound_of_blk hn hb⟩

/-- The heads, the flags and what is put back. -/
theorem Minor.quiet (h : Minor s₀ s) (hq : Quiet s s') : Minor s₀ s' :=
  h.trans ⟨hq.toSameBlocks, by unfold Pettycoin.placed; rw [hq.txhash], hq.flags⟩

-- ---------------------------------------------------------------------------
-- Changes that leave the heads alone too
-- ---------------------------------------------------------------------------

/-- The heads and the flags are the same, too. -/
structure Calm (s₀ s : State D) : Prop extends Minor s₀ s where
  flag : ∀ b : Nat, (s.blk b).allKnown = (s₀.blk b).allKnown
  chains : s.longestChains = s₀.longestChains
  knowns : s.longestKnowns = s₀.longestKnowns
  preferred : s.preferredChain = s₀.preferredChain

theorem Calm.refl (s : State D) : Calm s s := ⟨.refl s, fun _ => rfl, rfl, rfl, rfl⟩

theorem Calm.trans (h : Calm s₀ s) (h' : Calm s s') : Calm s₀ s' :=
  ⟨h.toMinor.trans h'.toMinor, fun b => (h'.flag b).trans (h.flag b), h'.chains.trans h.chains,
    h'.knowns.trans h.knowns, h'.preferred.trans h.preferred⟩

theorem Calm.sameHeads (h : Calm s₀ s) : SameHeads s₀ s :=
  ⟨h.toSameBlocks, fun b _ => h.flag b, h.chains, h.knowns, h.preferred⟩

/-- Changing what else `txhash` holds. -/
theorem calm_of_placed (hn : s'.numBlocks = s.numBlocks) (hb : s'.blk = s.blk)
    (hc : s'.longestChains = s.longestChains) (hk : s'.longestKnowns = s.longestKnowns)
    (hp : s'.preferredChain = s.preferredChain)
    (ht : (Pettycoin.placed s').Perm (Pettycoin.placed s)) : Calm s s' :=
  ⟨minor_of_placed hn hb ht, fun x => by rw [hb], hc, hk, hp⟩

/-- Changing anything else. -/
theorem Calm.congr (h : Calm s₀ s) (hn : s'.numBlocks = s.numBlocks) (hb : s'.blk = s.blk)
    (hc : s'.longestChains = s.longestChains) (hk : s'.longestKnowns = s.longestKnowns)
    (hp : s'.preferredChain = s.preferredChain) (ht : s'.txhash = s.txhash) : Calm s₀ s' :=
  h.trans (calm_of_placed hn hb hc hk hp (by unfold Pettycoin.placed; rw [ht]))

theorem Calm.emit (h : Calm s₀ s) (e : Event D) : Calm s₀ (s.emit e) :=
  h.congr rfl rfl rfl rfl rfl rfl

theorem Calm.modPending (h : Calm s₀ s) (f : PendingBlock D → PendingBlock D) :
    Calm s₀ (s.modPending f) := h.congr rfl rfl rfl rfl rfl rfl

/-- A step repeated over a list. -/
theorem Calm.foldl {α : Type} {f : State D → α → State D} {l : List α}
    (hf : ∀ s, ∀ a ∈ l, Calm s₀ s → Calm s₀ (f s a)) (h : Calm s₀ s) :
    Calm s₀ (l.foldl f s) := by
  induction l generalizing s with
  | nil => exact h
  | cons a l ih =>
    refine ih (fun s a' ha' => hf s a' (List.mem_cons_of_mem a ha')) ?_
    exact hf s a List.mem_cons_self h

/-- Wherever the call stops, if it returns then `P` holds. -/
abbrev Keeps {α : Type} (x : Res α) (P : α → Prop) : Prop := Ensures (fun _ => True) x P

theorem keeps_any {α : Type} (x : Res α) : Keeps x fun _ => True := by
  cases x <;> trivial

theorem keeps_of_ok {α : Type} {x : Res α} {P : α → Prop} (h : ∀ a, x = .ok a → P a) :
    Keeps x P := by
  cases x with
  | ok a => exact h a rfl
  | error e => trivial

variable [Digest D] [DecidableEq D]

-- ---------------------------------------------------------------------------
-- The hash tables
-- ---------------------------------------------------------------------------

omit [DecidableEq D] in
theorem inputhashAddTx_calm (h : Calm s₀ s) (onPending : Bool) (tx : Tx D) :
    Calm s₀ (inputhashAddTx E s onPending tx) := by
  unfold inputhashAddTx
  exact Calm.foldl (fun _ _ _ hs => hs.congr rfl rfl rfl rfl rfl rfl) h

theorem inputhashDelTx_calm (h : Calm s₀ s) (tx : Tx D) : Calm s₀ (inputhashDelTx E s tx) := by
  unfold inputhashDelTx
  exact Calm.foldl (fun _ _ _ hs => hs.congr rfl rfl rfl rfl rfl rfl) h

theorem recordInputs_calm (h : Calm s₀ s) (onPending : Bool) (tx : Tx D) :
    Calm s₀ (recordInputs E s onPending tx) := by
  unfold recordInputs
  split_ifs
  · exact inputhashAddTx_calm h onPending tx
  · exact h

theorem forgetInputs_calm (h : Calm s₀ s) (tx : Tx D) : Calm s₀ (forgetInputs E s tx) := by
  unfold forgetInputs
  split_ifs
  · exact inputhashDelTx_calm h tx
  · exact h

omit [Digest D] [DecidableEq D] in
/-- Erasing what a filter drops. -/
theorem filter_eraseP_of_disjoint {α : Type} {p q : α → Bool} (l : List α)
    (h : ∀ a, p a = true → q a = false) : (l.eraseP p).filter q = l.filter q := by
  induction l with
  | nil => rfl
  | cons a l ih =>
    rw [List.eraseP_cons]
    cases hp : p a with
    | true => simp [h a hp]
    | false => simp [List.filter_cons, ih]

/-- Forgetting that a transaction is pending. -/
theorem txhashDelTx_pending_calm (h : Calm s₀ s) (tx : Tx D) (sha : D) :
    Calm s₀ (txhashDelTx s (.pending tx) sha) := by
  refine h.trans (calm_of_placed rfl rfl rfl rfl rfl ?_)
  unfold placed txhashDelTx
  rw [filter_eraseP_of_disjoint]
  intro te hte
  unfold TxhashElem.isInBlock
  cases hloc : te.loc with
  | pending tx' => rfl
  | inBlock b' shard txoff =>
    rw [hloc] at hte
    exact absurd hte (by simp [sameWhere])

theorem removePendingTxFromHashes_calm (h : Calm s₀ s) (tx : Tx D) :
    Calm s₀ (removePendingTxFromHashes E s tx) :=
  forgetInputs_calm (txhashDelTx_pending_calm h _ _) _

theorem addPendingTxToHashes_calm (h : Calm s₀ s) (tx : Tx D) :
    Keeps (addPendingTxToHashes E s tx) (Calm s₀) := by
  unfold addPendingTxToHashes
  refine (keeps_any _).bind fun _ _ => ?_
  refine (recordInputs_calm h true tx).trans (calm_of_placed rfl rfl rfl rfl rfl ?_)
  unfold placed txhashAddTx
  exact (E.txLayout.add_perm _ _).filter _

-- ---------------------------------------------------------------------------
-- pending.c
-- ---------------------------------------------------------------------------

omit [Digest D] [DecidableEq D] in
theorem addToUnknownPending_calm (h : Calm s₀ s) (tx : Tx D) :
    Calm s₀ (addToUnknownPending s tx) := h.modPending _

theorem insertPendingTx_calm (h : Calm s₀ s) (tx : Tx D) :
    Keeps (insertPendingTx E s tx) fun r => Calm s₀ r.1 := by
  unfold insertPendingTx
  dsimp only
  split_ifs
  · exact addToUnknownPending_calm h tx
  · refine (keeps_any _).bind fun _ _ => ?_
    split
    · exact h
    · exact Calm.emit (h.modPending _) _

theorem keepPendingTx_calm (h : Calm s₀ s) (tx : Tx D) (ierr : InputEcode) (bad : Nat) :
    Keeps (keepPendingTx E s tx ierr bad) fun r => Calm s₀ r.1 := by
  unfold keepPendingTx
  have hfinish : ∀ (s₁ : State D) (a : AddPending), Calm s₀ s₁ →
      Keeps (do
        let s₂ ← addPendingTxToHashes E s₁ tx
        Except.ok (s₂, a)) fun r => Calm s₀ r.1 :=
    fun s₁ _ h₁ => (addPendingTxToHashes_calm h₁ tx).bind fun _ hs => hs
  dsimp only
  split_ifs
  · exact h
  · exact hfinish _ _ (addToUnknownPending_calm h tx)
  · refine (insertPendingTx_calm h tx).bind fun r hr => ?_
    obtain ⟨s₁, kept⟩ := r
    dsimp only at hr ⊢
    split_ifs
    · exact hr
    · exact hfinish _ _ hr

theorem addPendingTx_calm (h : Calm s₀ s) (tx : Tx D) :
    Keeps (addPendingTx E s tx) fun r => Calm s₀ r.1 := by
  unfold addPendingTx
  dsimp only
  split_ifs
  · exact h
  · exact h
  · refine (keeps_any _).bind fun r _ => ?_
    obtain ⟨ierr, bad⟩ := r
    dsimp only
    split
    · exact keepPendingTx_calm h tx _ bad
    · exact keepPendingTx_calm h tx _ bad
    · exact h

omit [Digest D] [DecidableEq D] in
theorem freePending_calm (h : Calm s₀ s) : Calm s₀ (freePending s) := by
  refine h.trans (calm_of_placed rfl rfl rfl rfl rfl ?_)
  unfold placed freePending
  rw [List.filter_filter]
  refine List.Perm.of_eq (List.filter_congr fun te _ => ?_)
  unfold TxhashElem.isInBlock
  cases te.loc <;> rfl

theorem recheckPendingTxs_calm (h : Calm s₀ s) :
    Keeps (recheckPendingTxs E s) (Calm s₀) := by
  have hflag : Calm s₀ (s.modPending fun p => { p with needsRecheck := false }) := h.modPending _
  unfold recheckPendingTxs
  dsimp only
  split_ifs
  · exact h
  · exact hflag
  · refine Ensures.bind (P := Calm s₀) ?_ fun _ hs => hs.emit _
    refine Ensures.foldlM (fun s₁ tx _ hs => ?_) (freePending_calm ?_)
    · exact (addPendingTx_calm hs tx).bind fun _ hr => hr
    · exact Calm.foldl (fun _ tx _ hs => removePendingTxFromHashes_calm hs tx) hflag

theorem dropPendingTx_calm (h : Calm s₀ s) (tx : Tx D) :
    Keeps (dropPendingTx E s tx) (Calm s₀) := by
  unfold dropPendingTx
  dsimp only
  split_ifs
  · exact h
  · exact (h.modPending _).emit _
  · exact h.modPending _
  · trivial

end Pettycoin
