import Pettycoin.Ledger
import Pettycoin.Minor

/-!
# Pettycoin — what a complaint does

`complaint_on_all` goes through the subtree below a block in preorder
(`complaintOnAll_eq_foldlM`). When it returns, exactly the blocks of that
subtree have the complaint, and exactly the elements of `txhash` that name
places in them are gone (`complaintOnAll_spec`).

* `complaintOnAll_eq_foldlM` — the recursion is a loop over the subtree in preorder;
* `Ledger.complaintOn_spec` — what one block of the subtree comes to;
* `Ledger.complaintOnAll_spec` — what the subtree comes to.
-/

namespace Pettycoin

open ExceptRules Forest

variable {D : Type} {E : Env D} {s s₁ s₂ s' : State D} {b : Nat}

-- ---------------------------------------------------------------------------
-- Erasing from lists
-- ---------------------------------------------------------------------------

/-- Erasing what a filter keeps. -/
theorem filter_eraseP_of_imp {α : Type} {p q : α → Bool} (l : List α)
    (h : ∀ a, p a = true → q a = true) : (l.eraseP p).filter q = (l.filter q).eraseP p := by
  induction l with
  | nil => rfl
  | cons a l ih =>
    rw [List.eraseP_cons]
    cases hp : p a with
    | true => simp [h a hp, hp]
    | false =>
      cases hq : q a with
      | true => simp [hq, hp, ih]
      | false => simp [hq, ih]

/-- Erasing the only element there is of a kind. -/
theorem eraseP_eq_filter {α : Type} {p : α → Bool} {l : List α} (hnodup : l.Nodup)
    (hunique : ∀ a ∈ l, ∀ a' ∈ l, p a = true → p a' = true → a = a') :
    l.eraseP p = l.filter fun a => !p a := by
  induction l with
  | nil => rfl
  | cons a l ih =>
    obtain ⟨hnot, hrest⟩ := List.nodup_cons.mp hnodup
    rw [List.eraseP_cons]
    cases hp : p a with
    | true =>
      have hkeep : ∀ a' ∈ l, (!p a') = true := by
        intro a' ha'
        cases hp' : p a' with
        | false => rfl
        | true =>
          have heq := hunique a List.mem_cons_self a' (List.mem_cons_of_mem a ha') hp hp'
          exact absurd (heq ▸ ha') hnot
      simp [hp, List.filter_eq_self.mpr hkeep]
    | false =>
      have hrest' := ih hrest fun x hx y hy =>
        hunique x (List.mem_cons_of_mem a hx) y (List.mem_cons_of_mem a hy)
      simp [hp, hrest']

-- ---------------------------------------------------------------------------
-- The effect of a complaint
-- ---------------------------------------------------------------------------

/-- The element is of a place in one of these blocks. -/
def TxhashElem.inBlocks (blocks : List BlockId) (te : TxhashElem D) : Bool :=
  match te.loc with
  | .inBlock b _ _ => blocks.contains b
  | .pending _ => false

theorem TxhashElem.inBlocks_iff {blocks : List BlockId} {te : TxhashElem D} :
    te.inBlocks blocks = true ↔ ∃ b i j, te.loc = .inBlock b i j ∧ b ∈ blocks := by
  unfold TxhashElem.inBlocks
  cases te.loc with
  | inBlock b i j => simp
  | pending tx => simp

/-- From `s` to `s'` these blocks get the complaint, and what `txhash` names in them
is forgotten. -/
structure Invalidated (complaint : Complaint D) (blocks : List BlockId) (s s' : State D) :
    Prop where
  numBlocks : s'.numBlocks = s.numBlocks
  blk : ∀ x : Nat, s'.blk x
    = if x ∈ blocks then { s.blk x with complaint := some complaint } else s.blk x
  placed : placed s' = (placed s).filter fun te => !te.inBlocks blocks

theorem Invalidated.nil (complaint : Complaint D) (s : State D) :
    Invalidated complaint [] s s where
  numBlocks := rfl
  blk x := by simp
  placed := by
    refine (List.filter_eq_self.mpr fun te _ => ?_).symm
    unfold TxhashElem.inBlocks
    cases te.loc <;> simp

theorem Invalidated.append {complaint : Complaint D} {blocks blocks' : List BlockId}
    (h : Invalidated complaint blocks s s₁) (h' : Invalidated complaint blocks' s₁ s') :
    Invalidated complaint (blocks ++ blocks') s s' where
  numBlocks := h'.numBlocks.trans h.numBlocks
  blk x := by
    rw [h'.blk x, h.blk x]
    by_cases hx : x ∈ blocks <;> by_cases hx' : x ∈ blocks' <;> simp [hx, hx']
  placed := by
    rw [h'.placed, h.placed, List.filter_filter]
    refine List.filter_congr fun te _ => ?_
    unfold TxhashElem.inBlocks
    cases te.loc with
    | pending tx => rfl
    | inBlock b i j =>
      by_cases hb : b ∈ blocks <;> by_cases hb' : b ∈ blocks' <;> simp [hb, hb']

theorem Invalidated.prevOf_eq {complaint : Complaint D} {blocks : List BlockId}
    (h : Invalidated complaint blocks s s') : prevOf s' = prevOf s := by
  funext x
  unfold prevOf
  rw [h.blk]
  split_ifs <;> rfl

theorem Invalidated.children_eq {complaint : Complaint D} {blocks : List BlockId}
    (h : Invalidated complaint blocks s s') : s'.children = s.children := by
  funext x
  unfold State.children
  rw [h.numBlocks]
  refine List.filter_congr fun c _ => ?_
  rw [show (s'.blk c).prev = (s.blk c).prev from congrFun h.prevOf_eq c]

variable [Digest D] [DecidableEq D]

-- One block
-- ---------

theorem inputhashDelTx_same (tx : Tx D) :
    (inputhashDelTx E s tx).txhash = s.txhash ∧ (inputhashDelTx E s tx).blk = s.blk ∧
      (inputhashDelTx E s tx).numBlocks = s.numBlocks ∧
      (inputhashDelTx E s tx).pending = s.pending := by
  unfold inputhashDelTx
  generalize txInputs tx = inps
  induction inps generalizing s with
  | nil => exact ⟨rfl, rfl, rfl, rfl⟩
  | cons inp inps ih =>
    obtain ⟨htxhash, hblk, hnum, hpending⟩ := ih (s := { s with
      inputhash := s.inputhash.eraseP fun ie =>
        ie.tx == inp.input && ie.outputNum == inp.output && ie.usedBy == hashTx E.crypto tx })
    exact ⟨htxhash, hblk, hnum, hpending⟩

theorem forgetInputs_same (tx : Tx D) :
    (forgetInputs E s tx).txhash = s.txhash ∧ (forgetInputs E s tx).blk = s.blk ∧
      (forgetInputs E s tx).numBlocks = s.numBlocks ∧
      (forgetInputs E s tx).pending = s.pending := by
  unfold forgetInputs
  split_ifs
  · exact inputhashDelTx_same tx
  · exact ⟨rfl, rfl, rfl, rfl⟩

/-- Deleting the element of a place. -/
theorem Ledger.placed_txhashDelTx (hl : Ledger E s) (hnodup : (placed s).Nodup) {i j : Nat}
    {h : TxRefHash D} (hentry : entryAt E.crypto s b i j = some h) :
    placed (txhashDelTx s (.inBlock b i j) h.txhash)
      = (placed s).filter fun te => !decide (te.loc = .inBlock b i j) := by
  have hwhere : ∀ te : TxhashElem D, sameWhere te.loc (.inBlock b i j)
      = decide (te.loc = .inBlock b i j) := by
    intro te
    cases te.loc with
    | pending tx => simp [sameWhere]
    | inBlock b' i' j' =>
      rw [Bool.eq_iff_iff]
      simp [sameWhere, and_assoc]
  have hsha : ∀ te ∈ placed s, te.loc = .inBlock b i j → te.sha = h.txhash := by
    intro te hte hloc
    obtain ⟨-, h', hentry', hsha⟩ := hl.inBlock te (mem_placed.mp hte).1 b i j hloc
    rw [hentry] at hentry'
    rw [← hsha, Option.some.inj hentry']
  unfold txhashDelTx
  show (List.eraseP _ s.txhash).filter TxhashElem.isInBlock = _
  rw [filter_eraseP_of_imp]
  · show (placed s).eraseP _ = _
    rw [eraseP_eq_filter hnodup]
    · refine List.filter_congr fun te hte => ?_
      rw [hwhere]
      by_cases hloc : te.loc = .inBlock b i j
      · simp [hloc, hsha te hte hloc]
      · simp [hloc]
    · intro te _ te' _ hte hte'
      simp only [hwhere, Bool.and_eq_true, beq_iff_eq, decide_eq_true_eq] at hte hte'
      cases te
      cases te'
      simp_all
  · intro te hte
    simp only [hwhere, Bool.and_eq_true, decide_eq_true_eq] at hte
    unfold TxhashElem.isInBlock
    rw [hte.2]

theorem Ledger.removeTxFromHashes_spec (hl : Ledger E s) (hnodup : (placed s).Nodup) {i j : Nat}
    (h : removeTxFromHashes E s b i j = .ok s') :
    s'.numBlocks = s.numBlocks ∧ s'.blk = s.blk ∧
      placed s' = (placed s).filter fun te => !decide (te.loc = .inBlock b i j) := by
  unfold removeTxFromHashes at h
  split at h
  · rename_i tx refs hu
    injection h with h
    subst h
    obtain ⟨htxhash, hblk, hnum, -⟩ :=
      forgetInputs_same (E := E) (s := txhashDelTx s (.inBlock b i j) (hashTx E.crypto tx)) tx
    refine ⟨hnum, hblk, ?_⟩
    have hplaced := hl.placed_txhashDelTx hnodup (entryAt_tx hu)
    unfold placed at hplaced ⊢
    rw [htxhash]
    exact hplaced
  · rename_i hash hu
    injection h with h
    subst h
    exact ⟨rfl, rfl, hl.placed_txhashDelTx hnodup (entryAt_hash hu)⟩
  · exact absurd h (by simp)

/-- Deleting the elements of several places of one block. -/
theorem Ledger.removePlaces_spec (hl : Ledger E s) (hnodup : (placed s).Nodup)
    (places : List (Nat × Nat))
    (h : places.foldlM (fun s place => removeTxFromHashes E s b place.1 place.2) s = .ok s') :
    s'.numBlocks = s.numBlocks ∧ s'.blk = s.blk ∧
      placed s' = (placed s).filter fun te =>
        !places.any fun place => te.loc = .inBlock b place.1 place.2 := by
  induction places generalizing s with
  | nil =>
    injection h with h
    subst h
    exact ⟨rfl, rfl, (List.filter_eq_self.mpr fun _ _ => rfl).symm⟩
  | cons place places ih =>
    rw [List.foldlM_cons] at h
    obtain ⟨s₁, hone, hrest⟩ := of_bind_eq_ok h
    obtain ⟨hnum, hblk, hplaced⟩ := hl.removeTxFromHashes_spec hnodup hone
    have hl₁ := hl.frame ((removeTxFromHashes_frame (Frame.refl E s) b _ _).of_ok hone)
    have hnodup₁ : (placed s₁).Nodup := by
      rw [hplaced]
      exact hnodup.filter _
    obtain ⟨hnum', hblk', hplaced'⟩ := ih hl₁ hnodup₁ hrest
    refine ⟨hnum'.trans hnum, hblk'.trans hblk, ?_⟩
    rw [hplaced', hplaced, List.filter_filter]
    refine List.filter_congr fun te _ => ?_
    rw [List.any_cons, Bool.not_or, Bool.and_comm]

theorem Ledger.complaintOn_spec (hl : Ledger E s) (hnodup : (placed s).Nodup)
    {complaint : Complaint D} (h : complaintOn E complaint s b = .ok s') :
    Invalidated complaint [b] s s' := by
  unfold complaintOn at h
  dsimp only at h
  have hmark : Frame E s (s.modBlock b fun blk => { blk with complaint := some complaint }) :=
    (Frame.refl E s).modBlock (fun _ => rfl) fun _ _ => rfl
  generalize hs₁ : s.modBlock b (fun blk => { blk with complaint := some complaint }) = s₁
    at h hmark
  have hnum₂ : (blockToPending s₁ b).numBlocks = s₁.numBlocks := by rw [blockToPending_eq]; rfl
  have hblk₂ : (blockToPending s₁ b).blk = s₁.blk := by rw [blockToPending_eq]; rfl
  have htxhash₂ : (blockToPending s₁ b).txhash = s₁.txhash := by rw [blockToPending_eq]; rfl
  have hl₂ := hl.frame (hmark.quiet (blockToPending_quiet (.refl s₁) b))
  generalize blockToPending s₁ b = s₂ at h hnum₂ hblk₂ htxhash₂ hl₂
  have hplaced₂ : placed s₂ = placed s := by
    unfold placed
    rw [htxhash₂, ← hs₁]
    rfl
  obtain ⟨hnum, hblk, hplaced⟩ := hl₂.removePlaces_spec (hplaced₂ ▸ hnodup) _ h
  refine ⟨?_, fun x => ?_, ?_⟩
  · rw [hnum, hnum₂, ← hs₁]
    rfl
  · rw [hblk, hblk₂, ← hs₁]
    unfold State.modBlock
    by_cases hx : x = b
    · subst hx
      simp
    · simp [hx]
  · rw [hplaced, hplaced₂]
    refine List.filter_congr fun te hte => congrArg _ ?_
    rw [← hplaced₂] at hte
    rw [Bool.eq_iff_iff, TxhashElem.inBlocks_iff, List.any_eq_true]
    constructor
    · rintro ⟨place, -, hloc⟩
      exact ⟨b, place.1, place.2, by simpa using hloc, List.mem_singleton.mpr rfl⟩
    · rintro ⟨b', i, j, hloc, hb'⟩
      obtain rfl := List.mem_singleton.mp hb'
      obtain ⟨-, h', hentry, -⟩ := hl₂.inBlock te (mem_placed.mp hte).1 b' i j hloc
      obtain ⟨hi, hj⟩ := hl₂.in_range hentry
      rw [hl₂.size] at hj
      refine ⟨(i, j), ?_, by simpa using hloc⟩
      unfold blockPlaces
      exact List.mem_flatMap.mpr ⟨i, List.mem_range.mpr hi,
        List.mem_map.mpr ⟨j, List.mem_range.mpr hj, rfl⟩⟩

-- The subtree
-- -----------

omit [Digest D] [DecidableEq D] in
/-- The blocks of the subtree below a block, in the order of the recursion. -/
def subtree (s : State D) (b : BlockId) : List BlockId :=
  preorder s.children (fun _ => true) (fun _ => true) s.numBlocks b

/-- A list of complaints. -/
theorem Ledger.complaintOns_spec (hl : Ledger E s) (hnodup : (placed s).Nodup)
    {complaint : Complaint D} (blocks : List BlockId)
    (h : blocks.foldlM (complaintOn E complaint) s = .ok s') :
    Invalidated complaint blocks s s' := by
  induction blocks generalizing s with
  | nil =>
    injection h with h
    exact h ▸ Invalidated.nil complaint s
  | cons b blocks ih =>
    rw [List.foldlM_cons] at h
    obtain ⟨s₁, hone, hrest⟩ := of_bind_eq_ok h
    have hinv := hl.complaintOn_spec hnodup hone
    have hl₁ := hl.frame ((complaintOn_frame (Frame.refl E s) complaint b).of_ok hone)
    have hnodup₁ : (placed s₁).Nodup := by
      rw [hinv.placed]
      exact hnodup.filter _
    exact hinv.append (ih hl₁ hnodup₁ hrest)

/-- `complaintOn` does not change which blocks there are. -/
theorem complaintOn_children {complaint : Complaint D}
    (h : complaintOn E complaint s b = .ok s') : s'.children = s.children := by
  have hf := (complaintOn_frame (Frame.refl E s) complaint b).of_ok h
  funext x
  unfold State.children
  rw [hf.numBlocks]
  refine List.filter_congr fun c _ => ?_
  show ((s'.blk c).core.prev == some x) = ((s.blk c).core.prev == some x)
  rw [hf.core]

/-- The recursion of `complaint_on_all` goes through the subtree. -/
theorem complaintOnAll_eq_foldlM (complaint : Complaint D) (fuel : Nat) (s : State D) (b : Nat) :
    complaintOnAll E complaint fuel s b
      = (preorder s.children (fun _ => true) (fun _ => true) fuel b).foldlM
          (complaintOn E complaint) s := by
  induction fuel generalizing s b with
  | zero => rfl
  | succ fuel ih =>
    have hkeep : ∀ (l : List BlockId) (s s' : State D),
        l.foldlM (complaintOn E complaint) s = .ok s' → s'.children = s.children := by
      intro l s s' h
      exact foldlM_preserves (P := fun s₁ => s₁.children = s.children)
        (fun s₁ s₂ a _ h₁ h₂ => (complaintOn_children h₂).trans h₁) rfl h
    have hlist : ∀ (l : List BlockId) (s₁ : State D), s₁.children = s.children →
        l.foldlM (complaintOnAll E complaint fuel) s₁
          = (l.flatMap (preorder s.children (fun _ => true) (fun _ => true) fuel)).foldlM
              (complaintOn E complaint) s₁ := by
      intro l
      induction l with
      | nil => exact fun _ _ => rfl
      | cons c l ihl =>
        intro s₁ h₁
        rw [List.foldlM_cons, List.flatMap_cons, List.foldlM_append, ih s₁ c, h₁]
        cases hc : (preorder s.children (fun _ => true) (fun _ => true) fuel c).foldlM
            (complaintOn E complaint) s₁ with
        | error e => rfl
        | ok s₂ => exact ihl s₂ ((hkeep _ _ _ hc).trans h₁)
    unfold complaintOnAll
    rw [preorder, if_pos rfl, if_pos rfl, List.foldlM_cons]
    cases hone : complaintOn E complaint s b with
    | error e => rfl
    | ok s₁ =>
      have hchildren := complaintOn_children hone
      show (s₁.children b).foldlM _ s₁ = _
      rw [hchildren]
      exact hlist _ s₁ hchildren

/-- **What `complaint_on_all` does.** -/
theorem Ledger.complaintOnAll_spec (hl : Ledger E s) (hnodup : (placed s).Nodup)
    {complaint : Complaint D} (h : complaintOnAll E complaint s.numBlocks s b = .ok s') :
    Invalidated complaint (subtree s b) s s' := by
  rw [complaintOnAll_eq_foldlM] at h
  exact hl.complaintOns_spec hnodup _ h

end Pettycoin
