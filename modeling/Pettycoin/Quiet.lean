import Pettycoin.Heads

/-!
# Pettycoin — what the heads leave alone

The functions of `chain.c` move the heads and flag the blocks that have become
known. They put transactions of blocks back into the pending block, at the end
of the unknown ones, and touch nothing else (`Quiet`). The faults they stop with
are all `Plain`: not one of the assertions that later results are about.

* `updateKnown_quiet`, `updateBlockPtrsInvalidated_quiet` — two of the functions of
  `chain.c`;
* `blockAddHeads_quiet` — the heads after a new block;
* `salvages_blockToPending` — what is put back;
* `recheckMerkles_plain` — the faults of the checks.
-/

namespace Pettycoin

open ExceptRules Forest

variable {D : Type} {s₀ s s' : State D} {b : Nat}

-- ---------------------------------------------------------------------------
-- Faults
-- ---------------------------------------------------------------------------

/-- An assertion of `put_tx_in_shard` or `put_txhash_in_shard`, the debugging
check they end with included. -/
def Fault.FromPut : Fault → Prop
  | .putTxDiffers | .putTxHashDiffers | .putTxhashDiffers => True
  | .checkShardAfterTx | .checkShardAfterHash => True
  | _ => False

/-- Any other fault. -/
def Fault.Elsewhere (e : Fault) : Prop := ¬ e.FromPut

/-- Any other fault, and neither the assertion of `recheck_tx` nor a loop that starts over for
ever. -/
def Fault.Plain : Fault → Prop
  | .putTxDiffers | .putTxHashDiffers | .putTxhashDiffers => False
  | .checkShardAfterTx | .checkShardAfterHash | .recheckComplained | .diverges => False
  | _ => True

theorem Fault.Plain.elsewhere (e : Fault) (h : e.Plain) : e.Elsewhere := by
  intro hput
  cases e <;> first | exact h | exact hput

/-- `assert`, in a postcondition. -/
theorem ensures_assert {F : Fault → Prop} {P : Unit → Prop} {cond : Bool} {fault : Fault}
    (hP : cond = true → P ()) (hF : cond = false → F fault) :
    Ensures F (assert cond fault) P := by
  unfold assert
  cases cond with
  | true => exact hP rfl
  | false => exact hF rfl

/-- A call that changes nothing and stops with such a fault only. -/
abbrev StopsPlainly {α : Type} (x : Res α) : Prop :=
  Ensures Fault.Plain x fun _ => True

theorem stopsPlainly_assert {cond : Bool} (fault : Fault) (hF : fault.Plain) :
    StopsPlainly (assert cond fault) :=
  ensures_assert (fun _ => trivial) fun _ => hF

-- ---------------------------------------------------------------------------
-- Quiet changes
-- ---------------------------------------------------------------------------

/-- A block with the flag has a fully known ancestry. -/
def FlagsSound (s : State D) : Prop := ∀ c : Nat, (s.blk c).allKnown = true → Known s c

/-- These transactions of blocks have been put back into the pending block. -/
structure Salvages (s₀ s : State D) (txs : List (Tx D)) : Prop where
  fromBlocks : ∀ tx ∈ txs, ∃ b i j, txFor (s₀.shardOf b i) j = some tx
  unknownTx : s.pending.unknownTx = s₀.pending.unknownTx ++ txs
  numUnknown : s.pending.numUnknown = s₀.pending.numUnknown + txs.length
  needsRecheck : s₀.pending.needsRecheck = true ∨ txs ≠ [] → s.pending.needsRecheck = true

/-- Only the heads, the flags and what has been put back have changed. -/
structure Quiet (s₀ s : State D) : Prop extends SameBlocks s₀ s where
  txhash : s.txhash = s₀.txhash
  inputhash : s.inputhash = s₀.inputhash
  pend : s.pending.pend = s₀.pending.pend
  salvages : ∃ txs, Salvages s₀ s txs
  flags : FlagsSound s₀ → FlagsSound s

theorem salvages_nil (hp : s.pending = s₀.pending) : Salvages s₀ s [] where
  fromBlocks _ h := absurd h (by simp)
  unknownTx := by rw [hp, List.append_nil]
  numUnknown := by rw [hp, List.length_nil, Nat.add_zero]
  needsRecheck h := by
    rw [hp]
    exact h.resolve_right fun hne => hne rfl

theorem Salvages.append {txs txs' : List (Tx D)} (hsame : SameBlocks s₀ s)
    (h : Salvages s₀ s txs) (h' : Salvages s s' txs') : Salvages s₀ s' (txs ++ txs') where
  fromBlocks tx htx := by
    rcases List.mem_append.mp htx with hold | hnew
    · exact h.fromBlocks tx hold
    · obtain ⟨b, i, j, hslot⟩ := h'.fromBlocks tx hnew
      exact ⟨b, i, j, by rw [← hsame.shardOf_eq]; exact hslot⟩
  unknownTx := by rw [h'.unknownTx, h.unknownTx, List.append_assoc]
  numUnknown := by rw [h'.numUnknown, h.numUnknown, List.length_append, Nat.add_assoc]
  needsRecheck hor := by
    refine h'.needsRecheck ?_
    by_cases htxs : txs = []
    · subst htxs
      exact hor.imp_left fun hold => h.needsRecheck (Or.inl hold)
    · exact Or.inl (h.needsRecheck (Or.inr htxs))

theorem Quiet.refl (s : State D) : Quiet s s := ⟨.refl s, rfl, rfl, rfl, ⟨[], salvages_nil rfl⟩, id⟩

theorem Quiet.trans (h : Quiet s₀ s) (h' : Quiet s s') : Quiet s₀ s' := by
  obtain ⟨txs, htxs⟩ := h.salvages
  obtain ⟨txs', htxs'⟩ := h'.salvages
  exact ⟨h.toSameBlocks.trans h'.toSameBlocks, h'.txhash.trans h.txhash,
    h'.inputhash.trans h.inputhash, h'.pend.trans h.pend,
    ⟨_, htxs.append h.toSameBlocks htxs'⟩, fun hf => h'.flags (h.flags hf)⟩

/-- The flags stay sound as long as the blocks are the same. -/
theorem flagsSound_of_blk (hn : s'.numBlocks = s.numBlocks) (hb : s'.blk = s.blk)
    (hf : FlagsSound s) : FlagsSound s' := by
  have hsame : SameBlocks s s' := ⟨hn, fun x => by rw [hb]⟩
  intro c hc
  rw [hsame.known_eq]
  exact hf c (hb ▸ hc)

/-- Putting transactions of blocks back. -/
theorem Quiet.salvage (h : Quiet s₀ s) {txs : List (Tx D)} (hn : s'.numBlocks = s.numBlocks)
    (hb : s'.blk = s.blk) (ht : s'.txhash = s.txhash) (hi : s'.inputhash = s.inputhash)
    (hp : s'.pending.pend = s.pending.pend) (hs : Salvages s s' txs) : Quiet s₀ s' :=
  h.trans ⟨⟨hn, fun x => by rw [hb]⟩, ht, hi, hp, ⟨txs, hs⟩, flagsSound_of_blk hn hb⟩

/-- Changing the heads or the log. -/
theorem Quiet.congr (h : Quiet s₀ s) (hn : s'.numBlocks = s.numBlocks) (hb : s'.blk = s.blk)
    (ht : s'.txhash = s.txhash) (hi : s'.inputhash = s.inputhash)
    (hp : s'.pending = s.pending) : Quiet s₀ s' :=
  h.salvage hn hb ht hi (by rw [hp]) (salvages_nil hp)

theorem Quiet.emit (h : Quiet s₀ s) (e : Event D) : Quiet s₀ (s.emit e) :=
  h.congr rfl rfl rfl rfl rfl

theorem Quiet.setNeedsRecheck (h : Quiet s₀ s) : Quiet s₀ s.setNeedsRecheck :=
  h.salvage rfl rfl rfl rfl rfl
    ⟨fun _ h => absurd h (by simp), (List.append_nil _).symm, rfl, fun _ => rfl⟩

/-- A block gets the flag when all of it is known and its parent has the flag. -/
theorem Quiet.mark (h : Quiet s₀ s) (hprev : ¬ ((s.blk b).prev.any fun p => !(s.blk p).allKnown))
    (hall : blockAllKnown s b = true) :
    Quiet s₀ (s.modBlock b fun blk => { blk with allKnown := true }) := by
  have hblk : ∀ x : Nat, (s.modBlock b fun blk => { blk with allKnown := true }).blk x
      = { s.blk x with allKnown := if x = b then true else (s.blk x).allKnown } := by
    intro x
    unfold State.modBlock
    by_cases hx : x = b
    · subst hx
      simp
    · simp [hx]
  have hsame : SameBlocks s (s.modBlock b fun blk => { blk with allKnown := true }) :=
    ⟨rfl, fun x => by rw [hblk x]⟩
  refine h.trans ⟨hsame, rfl, rfl, rfl, ⟨[], salvages_nil rfl⟩, fun hf c hc => ?_⟩
  rw [hsame.known_eq]
  rw [hblk c] at hc
  by_cases hcb : c = b
  · subst hcb
    intro a ha
    rcases anc_iff_eq_or_parent.mp ha with rfl | ⟨p, hp, hap⟩
    · exact hall
    · have hflag : (s.blk p).allKnown = true := by
        rw [show (s.blk c).prev = some p from hp] at hprev
        simpa using hprev
      exact hf p hflag a hap
  · exact hf c (by simpa [hcb] using hc)

/-- A step repeated over a list. -/
theorem Quiet.foldl {α : Type} {f : State D → α → State D} {l : List α}
    (hf : ∀ s a, Quiet s₀ s → Quiet s₀ (f s a)) (h : Quiet s₀ s) : Quiet s₀ (l.foldl f s) := by
  induction l generalizing s with
  | nil => exact h
  | cons a l ih => exact ih (hf s a h)

-- ---------------------------------------------------------------------------
-- Changes that leave the heads alone
-- ---------------------------------------------------------------------------

/-- Neither the heads nor the flags have changed. -/
structure Still (s₀ s : State D) : Prop extends Quiet s₀ s where
  flag : ∀ b : Nat, (s.blk b).allKnown = (s₀.blk b).allKnown
  chains : s.longestChains = s₀.longestChains
  knowns : s.longestKnowns = s₀.longestKnowns
  preferred : s.preferredChain = s₀.preferredChain

theorem Still.refl (s : State D) : Still s s := ⟨.refl s, fun _ => rfl, rfl, rfl, rfl⟩

theorem Still.trans (h : Still s₀ s) (h' : Still s s') : Still s₀ s' :=
  ⟨h.toQuiet.trans h'.toQuiet, fun b => (h'.flag b).trans (h.flag b), h'.chains.trans h.chains,
    h'.knowns.trans h.knowns, h'.preferred.trans h.preferred⟩

theorem Still.sameHeads (h : Still s₀ s) : SameHeads s₀ s :=
  ⟨h.toSameBlocks, fun b _ => h.flag b, h.chains, h.knowns, h.preferred⟩

theorem Still.emit (h : Still s₀ s) (e : Event D) : Still s₀ (s.emit e) :=
  ⟨h.toQuiet.emit e, h.flag, h.chains, h.knowns, h.preferred⟩

theorem Still.setNeedsRecheck (h : Still s₀ s) : Still s₀ s.setNeedsRecheck :=
  ⟨h.toQuiet.setNeedsRecheck, h.flag, h.chains, h.knowns, h.preferred⟩

/-- A step repeated over a list. -/
theorem Still.foldl {α : Type} {f : State D → α → State D} {l : List α}
    (hf : ∀ s a, Still s₀ s → Still s₀ (f s a)) (h : Still s₀ s) : Still s₀ (l.foldl f s) := by
  induction l generalizing s with
  | nil => exact h
  | cons a l ih => exact ih (hf s a h)

-- ---------------------------------------------------------------------------
-- chain.c
-- ---------------------------------------------------------------------------

theorem updatePreferredChain_quiet (h : Quiet s₀ s) : Quiet s₀ (updatePreferredChain s) :=
  h.congr rfl rfl rfl rfl rfl

theorem orderBlockPointers_quiet (h : Quiet s₀ s) : Quiet s₀ (orderBlockPointers s) := by
  unfold orderBlockPointers
  split
  · exact h
  · exact h.congr rfl rfl rfl rfl rfl

theorem updateKnownRecursive_quiet (fuel : Nat) (h : Quiet s₀ s) :
    Quiet s₀ (updateKnownRecursive fuel s b).1 := by
  induction fuel generalizing s b with
  | zero => exact h
  | succ fuel ih =>
    unfold updateKnownRecursive
    dsimp only
    split_ifs with hprev hall
    · exact h
    · exact h
    · exact h.mark hprev (by simpa using hall)
    · have hmark := h.mark hprev (by simpa using hall)
      have hfold : ∀ (l : List Nat) (acc : State D × Bool), Quiet s₀ acc.1 →
          Quiet s₀ (l.foldl (fun acc c =>
            ((updateKnownRecursive fuel acc.1 c).1,
              acc.2 || (updateKnownRecursive fuel acc.1 c).2)) acc).1 := by
        intro l
        induction l with
        | nil => exact fun acc hacc => hacc
        | cons c l ihl => exact fun acc hacc => ihl _ (ih hacc)
      exact hfold _ _ (hmark.congr rfl rfl rfl rfl rfl)

/-- What `block_to_pending` comes to. -/
theorem blockToPending_eq (s : State D) (b : Nat) :
    blockToPending s b = s.modPending fun p =>
      { p with
        unknownTx := p.unknownTx ++ blockTxs s b
        numUnknown := p.numUnknown + (blockTxs s b).length
        needsRecheck := p.needsRecheck || !(blockTxs s b).isEmpty } := by
  unfold blockToPending
  generalize blockTxs s b = txs
  induction txs generalizing s with
  | nil => simp [State.modPending]
  | cons tx txs ih =>
    rw [List.foldl_cons, ih]
    simp [State.modPending, State.setNeedsRecheck, addToUnknownPending, Nat.add_assoc,
      Nat.add_comm 1]

/-- What is put back are transactions of the block. -/
theorem mem_blockTxs {tx : Tx D} :
    tx ∈ blockTxs s b ↔ ∃ i < (s.blk b).numShards, ∃ j < (s.blk b).shardSize i,
      txFor (s.shardOf b i) j = some tx := by
  unfold blockTxs
  simp only [List.mem_flatMap, List.mem_filterMap, List.mem_range]

theorem salvages_blockToPending (s : State D) (b : Nat) :
    Salvages s (blockToPending s b) (blockTxs s b) := by
  rw [blockToPending_eq]
  refine ⟨fun tx htx => ?_, rfl, rfl, fun hor => ?_⟩
  · obtain ⟨i, -, j, -, hslot⟩ := mem_blockTxs.mp htx
    exact ⟨b, i, j, hslot⟩
  · show (s.pending.needsRecheck || !(blockTxs s b).isEmpty) = true
    rcases hor with hold | hne
    · rw [hold, Bool.true_or]
    · simp [hne]

theorem blockToPending_quiet (h : Quiet s₀ s) (b : Nat) : Quiet s₀ (blockToPending s b) := by
  have hs := salvages_blockToPending s b
  rw [blockToPending_eq] at hs ⊢
  exact h.salvage rfl rfl rfl rfl rfl hs

theorem stealBackTo_quiet (stop : Option Nat) (n : Nat) (h : Quiet s₀ s) (b : Nat) :
    Quiet s₀ (stealBackTo stop n s b) := by
  induction n generalizing s b with
  | zero => exact h
  | succ n ih =>
    unfold stealBackTo
    split_ifs
    · exact h
    · dsimp only
      split
      · exact ih (blockToPending_quiet h b) _
      · exact blockToPending_quiet h b

theorem stealPendingTxs_quiet (h : Quiet s₀ s) (old new : Nat) :
    Quiet s₀ (stealPendingTxs s old new) := by
  unfold stealPendingTxs
  split
  · exact stealBackTo_quiet _ _ h _
  · exact h

theorem updateKnown_quiet (h : Quiet s₀ s) (b : Nat) : Quiet s₀ (updateKnown s b) := by
  have hrec := updateKnownRecursive_quiet (b := b) s.numBlocks h
  unfold updateKnown
  generalize updateKnownRecursive s.numBlocks s b = r at hrec ⊢
  obtain ⟨s₁, changed⟩ := r
  have hordered : Quiet s₀ (updatePreferredChain (orderBlockPointers s₁.setNeedsRecheck)) :=
    updatePreferredChain_quiet (orderBlockPointers_quiet hrec.setNeedsRecheck)
  dsimp only
  split_ifs
  · exact hrec
  · exact stealPendingTxs_quiet hordered _ _
  · exact hordered

theorem newLongest_quiet (h : Quiet s₀ s) (b : Nat) : Quiet s₀ (newLongest s b) := by
  unfold newLongest
  refine updatePreferredChain_quiet (orderBlockPointers_quiet ?_)
  split_ifs
  · exact h.congr rfl rfl rfl rfl rfl
  · exact h

theorem updateBlockPtrsNewBlock_quiet (h : Quiet s₀ s) (b : Nat) :
    Quiet s₀ (updateBlockPtrsNewBlock s b) := by
  unfold updateBlockPtrsNewBlock
  refine updatePreferredChain_quiet ?_
  have hlongest : ∀ s₁ : State D, Quiet s₀ s₁ →
      Quiet s₀ (if blockAllKnown s₁ b then updateKnown s₁ b else s₁) := by
    intro s₁ h₁
    split_ifs
    · exact updateKnown_quiet h₁ b
    · exact h₁
  refine hlongest _ ?_
  split
  · refine newLongest_quiet ?_ b
    exact h.congr rfl rfl rfl rfl rfl
  · refine newLongest_quiet ?_ b
    exact h.congr rfl rfl rfl rfl rfl
  · exact h

/-- Once the block is sewn in, `block_add` only moves the heads. -/
theorem blockAddHeads_quiet (s : State D) (prev : BlockId) (nb : NewBlock D) :
    Quiet (sewBlock s prev nb) (blockAddHeads s prev nb) := by
  unfold blockAddHeads
  dsimp only
  split_ifs
  · exact .refl _
  · exact updateBlockPtrsNewBlock_quiet (.refl _) _

theorem forgetAboutAll_quiet (fuel : Nat) (h : Quiet s₀ s) (b : Nat) :
    Quiet s₀ (forgetAboutAll fuel s b) := by
  induction fuel generalizing s b with
  | zero => exact h
  | succ fuel ih => exact Quiet.foldl (fun _ c hs => ih hs c) (h.emit _)

theorem checkChains_plain (s : State D) : StopsPlainly (checkChains s) := by
  unfold checkChains
  refine (stopsPlainly_assert .checkChains trivial).bind fun _ _ => ?_
  refine (stopsPlainly_assert .checkChains trivial).bind fun _ _ => ?_
  refine (stopsPlainly_assert .checkChains trivial).bind fun _ _ => ?_
  refine (stopsPlainly_assert .checkChains trivial).bind fun _ _ => ?_
  refine (stopsPlainly_assert .checkChains trivial).bind fun _ _ => ?_
  refine (stopsPlainly_assert .checkChains trivial).bind fun _ _ => ?_
  exact stopsPlainly_assert .checkChains trivial

theorem recalculateHeads_quiet (h : Quiet s₀ s) : Quiet s₀ (recalculateHeads s) := by
  unfold recalculateHeads
  refine updateKnown_quiet ?_ 0
  exact h.congr rfl rfl rfl rfl rfl

theorem updateBlockPtrsInvalidated_quiet (h : Quiet s₀ s) (b : Nat) :
    Ensures Fault.Plain (updateBlockPtrsInvalidated s b) (Quiet s₀) := by
  unfold updateBlockPtrsInvalidated
  refine (checkChains_plain _).bind fun _ _ => ?_
  exact (forgetAboutAll_quiet _ (recalculateHeads_quiet h) b).emit _

section

variable [Digest D]

theorem checkPrevTxhashesFrom_plain (C : Crypto D) (s : State D) (block : Nat)
    (blocks : List BlockId) (off : Nat) :
    StopsPlainly (checkPrevTxhashesFrom C s block blocks off) := by
  induction blocks generalizing off with
  | nil => exact (stopsPlainly_assert .prevTxhashes trivial).bind fun _ _ => trivial
  | cons b rest ih =>
    unfold checkPrevTxhashesFrom
    split_ifs
    · trivial
    · exact ih _

theorem recheckMerkles_plain (C : Crypto D) (s : State D) (fuel : Nat) (b : Nat) :
    StopsPlainly (recheckMerkles C s fuel b) := by
  induction fuel generalizing b with
  | zero => trivial
  | succ fuel ih =>
    unfold recheckMerkles
    refine (checkPrevTxhashesFrom_plain C s b _ 0).bind fun good _ => ?_
    split_ifs
    · exact Ensures.forM fun c _ => ih c
    · trivial

theorem updateBlockPtrsNewShard_quiet (C : Crypto D) (h : Quiet s₀ s) (b : Nat) :
    Ensures Fault.Plain (updateBlockPtrsNewShard C s b) (Quiet s₀) := by
  unfold updateBlockPtrsNewShard updateBlockPtrsNewShardOrEmpty
  refine (Ensures.forM fun _ _ => recheckMerkles_plain C s _ b).bind fun _ _ => ?_
  simp only [ensures_ok]
  split_ifs
  · exact updateKnown_quiet h b
  · exact h

end

end Pettycoin
