import Pettycoin.CheckChains
import Pettycoin.NodeHeads
import Pettycoin.Salvage

/-!
# Pettycoin — when a reorganisation loses transactions

`update_known` puts back what was on the old branch only (`updateKnown_salvaged`).
Two routes move `longest_knowns[0]` past it: `new_longest` swaps the pointers
(`Attached.knownHead_compared`), and `update_block_ptrs_invalidated` starts again
from the genesis block, where nothing is on the old branch only. For each the
condition is exact (`blockAddHeads_reinstates_iff`,
`publishComplaint_reinstates_iff`).

* `firstKnown_orderBlockPointers`, `firstKnown_recalculateHeads` — the head that is
  moved to;
* `Attached.swapped` — what a swap leaves behind;
* `blockAddHeads_reinstates_iff`, `publishComplaint_reinstates_iff` — what is put
  back;
* `blockAddHeads_asks_iff` — whether a recheck is asked for.
-/

namespace Pettycoin

open ExceptRules Forest KeepBest

variable {D : Type} {s s₁ s' : State D} {b prev : Nat}

-- ---------------------------------------------------------------------------
-- Which known block the order of the pointers puts first
-- ---------------------------------------------------------------------------

/-- A block as good as any of all those whose ancestors are all known. -/
def BestKnown (s : State D) (k : Nat) : Prop := Best s (fun x => Clean s x ∧ Known s x) k

/-- The known block that comes first when the heads are calculated afresh: below
the first longest chain in depth-first order that has one, or else the first
itself. -/
def FirstKnown (s : State D) (k : Nat) : Prop :=
  BestKnown s k ∧
    ((∃ c, Best s (Clean s) c ∧ Anc (prevOf s) k c ∧
        ∀ c' k', Best s (Clean s) c' → BestKnown s k' → Anc (prevOf s) k' c' →
          ¬ Fork (prevOf s) c' c) ∨
      (∀ c k', Best s (Clean s) c → BestKnown s k' → ¬ Anc (prevOf s) k' c) ∧
        ∀ k', BestKnown s k' → ¬ Fork (prevOf s) k' k)

/-- `longest_knowns` is in depth-first order. -/
def KnownsSorted (s : State D) : Prop :=
  s.longestKnowns.Pairwise fun u v => Anc (prevOf s) u v ∨ Fork (prevOf s) u v

theorem fork_irrefl (ht : TreeOk s) (x : Nat) : ¬ Fork (prevOf s) x x :=
  fun h => not_anc_of_fork ht.grows h (Anc.refl _ _)

/-- Two best blocks are the same, or on different branches. -/
theorem best_eq_or_fork {P : Nat → Prop} (ht : TreeOk s) {x y : Nat} (hx : Best s P x)
    (hy : Best s P y) (hxlt : x < s.numBlocks) (hylt : y < s.numBlocks) :
    x = y ∨ Fork (prevOf s) x y ∨ Fork (prevOf s) y x := by
  have hwork : workOf s x = workOf s y := Nat.le_antisymm (hy.2 x hx.1) (hx.2 y hy.1)
  by_cases hxy : Anc (prevOf s) x y
  · exact .inl ((ht.anc_work hxy).resolve_right (by omega))
  · by_cases hyx : Anc (prevOf s) y x
    · exact .inl ((ht.anc_work hyx).resolve_right (by omega)).symm
    · exact .inr (fork_total (ht.genesis_anc hxlt) (ht.genesis_anc hylt) hxy hyx)

/-- Two best blocks on one branch are the same. -/
theorem best_eq_of_anc {P : Nat → Prop} (ht : TreeOk s) {x y c : Nat} (hx : Best s P x)
    (hy : Best s P y) (hxc : Anc (prevOf s) x c) (hyc : Anc (prevOf s) y c) : x = y := by
  have hwork : workOf s x = workOf s y := Nat.le_antisymm (hy.2 x hx.1) (hx.2 y hy.1)
  rcases hxc.total hyc with hxy | hyx
  · exact (ht.anc_work hxy).resolve_right (by omega)
  · exact ((ht.anc_work hyx).resolve_right (by omega)).symm

/-- There is one first known block at most. -/
theorem FirstKnown.unique (ht : TreeOk s) {x y : Nat} (hx : FirstKnown s x)
    (hy : FirstKnown s y) : x = y := by
  obtain ⟨hbx, hx⟩ := hx
  obtain ⟨hby, hy⟩ := hy
  rcases hx with ⟨c, hc, hxc, hfirst⟩ | ⟨hnone, hfirst⟩
  · rcases hy with ⟨c', hc', hyc', hfirst'⟩ | ⟨hnone', -⟩
    · rcases best_eq_or_fork ht hc hc' hc.1.1 hc'.1.1 with rfl | hfork | hfork
      · exact best_eq_of_anc ht hbx hby hxc hyc'
      · exact absurd hfork (hfirst' c x hc hbx hxc)
      · exact absurd hfork (hfirst c' y hc' hby hyc')
    · exact absurd hxc (hnone' c x hc hbx)
  · rcases hy with ⟨c', hc', hyc', -⟩ | ⟨-, hfirst'⟩
    · exact absurd hyc' (hnone c' y hc' hby)
    · rcases best_eq_or_fork ht hbx hby hbx.1.1.1 hby.1.1.1 with heq | hfork | hfork
      · exact heq
      · exact absurd hfork (hfirst' x hbx)
      · exact absurd hfork (hfirst y hby)

theorem SameBlocks.firstKnown_iff (h : SameBlocks s s') {k : Nat} :
    FirstKnown s' k ↔ FirstKnown s k := by
  unfold FirstKnown BestKnown
  rw [h.best_eq, h.clean_eq, h.known_eq, h.prevOf_eq]

/-- In a list in depth-first order no best block comes on an earlier branch than one
before it. -/
theorem not_fork_of_sorted {P : Nat → Prop} (ht : TreeOk s) {l : List BlockId}
    (hsorted : l.Pairwise fun u v => Anc (prevOf s) u v ∨ Fork (prevOf s) u v) {i m : Nat}
    (hm : m < l.length) (him : i ≤ m) (hi : Best s P (l.getD i 0)) (hbm : Best s P (l.getD m 0)) :
    ¬ Fork (prevOf s) (l.getD m 0) (l.getD i 0) := by
  intro hfork
  rcases Nat.eq_or_lt_of_le him with rfl | hlt
  · exact fork_irrefl ht _ hfork
  · have hrel := List.pairwise_iff_getElem.mp hsorted i m (by omega) hm hlt
    rw [← List.getD_eq_getElem l 0, ← List.getD_eq_getElem l 0] at hrel
    rcases hrel with hanc | hfork'
    · exact fork_irrefl ht _ (best_eq_of_anc ht hi hbm hanc (Anc.refl _ _) ▸ hfork)
    · exact hfork'.asymm ht.grows hfork

/-- **`order_block_pointers`** puts the first known block first, if both lists are in
depth-first order. -/
theorem firstKnown_orderBlockPointers (ht : TreeOk s) (hc : ChainsOk s) (hk : KnownsOk s)
    (hchains : ChainsSorted s) (hknowns : KnownsSorted s) :
    FirstKnown s (knownHead (orderBlockPointers s)) := by
  unfold orderBlockPointers
  cases hfind : findConnectedPair s with
  | none =>
    have hnone := (findConnectedPair_eq_none ht).mp hfind
    have hhead := (hk.mem _).mp (headD_mem hk.ne_nil)
    refine ⟨hhead, .inr ⟨fun c k' hbc hbk => hnone k' ((hk.mem k').mpr hbk) c ((hc.mem c).mpr hbc),
      fun k' hbk => ?_⟩⟩
    obtain ⟨m, hm, rfl⟩ := List.getElem_of_mem ((hk.mem k').mpr hbk)
    rw [← List.getD_eq_getElem _ 0] at hbk ⊢
    have hzero : s.longestKnowns.headD 0 = s.longestKnowns.getD 0 0 := by
      cases s.longestKnowns <;> rfl
    show ¬ Fork (prevOf s) _ (s.longestKnowns.headD 0)
    rw [hzero] at hhead ⊢
    exact not_fork_of_sorted ht hknowns hm (Nat.zero_le m) hhead hbk
  | some ij =>
    obtain ⟨i, j⟩ := ij
    obtain ⟨hi, hj, hpre⟩ := findConnectedPair_eq_some ht hfind
    have hhead : knownHead { s with
        longestChains := swapToFront s.longestChains i
        longestKnowns := swapToFront s.longestKnowns j } = s.longestKnowns.getD j 0 :=
      headD_swapToFront hj
    dsimp only
    rw [hhead]
    have hbest : ∀ {m : Nat}, m < s.longestChains.length →
        Best s (Clean s) (s.longestChains.getD m 0) := by
      intro m hm
      rw [List.getD_eq_getElem _ _ hm]
      exact (hc.mem _).mp (List.getElem_mem hm)
    refine ⟨?_, .inl ⟨_, hbest hi, hpre, fun c' k' hbc hbk hkc => ?_⟩⟩
    · rw [List.getD_eq_getElem _ _ hj]
      exact (hk.mem _).mp (List.getElem_mem hj)
    · obtain ⟨m, hm, rfl⟩ := List.getElem_of_mem ((hc.mem c').mpr hbc)
      rw [← List.getD_eq_getElem _ 0] at hbc hkc ⊢
      have him : i ≤ m := by
        by_contra hlt
        exact findConnectedPair_first ht hfind (by omega) ((hk.mem k').mpr hbk) hkc
      exact not_fork_of_sorted ht hchains hm him (hbest hi) hbc

/-- **The head after a recalculation.** -/
theorem firstKnown_recalculateHeads (h : Recalculable s) :
    FirstKnown s (knownHead (recalculateHeads s)) := by
  obtain ⟨s₀, hrecalc, hsame, hc, hpend, -, hchanged, hchains, hknowns⟩ :=
    recalculateHeads_start h.tree h.genesis h.flag
  have ht₀ := hsame.treeOk h.tree
  have hprev : ∀ p : Nat, prevOf s₀ 0 = some p → (s₀.blk p).allKnown = true := by
    intro p hp
    rw [ht₀.genesis_prev] at hp
    exact absurd hp (by simp)
  have hlevel : Level (workOf s₀) [0] := level_singleton 0
  rw [hrecalc, ← hsame.firstKnown_iff]
  -- both lists are in depth-first order
  have hsortedC : ChainsSorted s₀ := by
    rw [ChainsSorted, hchains, hsame.prevOf_eq]
    refine List.Pairwise.sublist (foldl_keepBest_sublist _ _) ?_
    rw [List.singleton_append, List.pairwise_cons]
    refine ⟨fun x hx => Or.inl ?_, pairwise_preorder h.tree.grows (childrenOf s) _ _ _ _⟩
    exact ((mem_cleanSearch h.tree h.tree.genesis_lt).mp hx).2
  obtain ⟨hstate, -⟩ := updateKnownRecursive_eq_markKnown s₀.numBlocks hprev
  obtain ⟨hsame₁, hk₁, hchains₁, -, -⟩ := hpend.recursive ht₀ ht₀.genesis_lt
  have hknowns₁ : (updateKnownRecursive s₀.numBlocks s₀ 0).1.longestKnowns
      = ((knownSearch s₀ s₀.numBlocks 0).filter fun x => (s₀.blk x).complaint.isNone).foldl
          (keepBest (workOf s₀)) [0] := by
    rw [hstate, ← foldl_keepBestWork hlevel, ← hknowns]
    rfl
  unfold updateKnown
  generalize updateKnownRecursive s₀.numBlocks s₀ 0 = r at hsame₁ hk₁ hchains₁ hknowns₁ hchanged ⊢
  obtain ⟨s₁, changed⟩ := r
  dsimp only at hsame₁ hk₁ hchains₁ hknowns₁ hchanged ⊢
  subst hchanged
  have hside : SideOnly s₁ s₁.setNeedsRecheck := ⟨_, _, rfl⟩
  have hflag₂ : ∀ x, (s₁.setNeedsRecheck.blk x).allKnown = (s₁.blk x).allKnown := fun _ => rfl
  have hsame₂ := hside.sameHeads.toSameBlocks
  have hfirst := firstKnown_orderBlockPointers (s := s₁.setNeedsRecheck)
    (hsame₂.treeOk (hsame₁.treeOk ht₀))
    ((hc.congr hsame₁ (hchains₁ ▸ List.Perm.refl _)).congr hsame₂ (List.Perm.refl _))
    (hk₁.congr hsame₂ hflag₂ (List.Perm.refl _)) (by
      rw [ChainsSorted, hsame₂.prevOf_eq, hsame₁.prevOf_eq,
        show s₁.setNeedsRecheck.longestChains = s₀.longestChains from hchains₁]
      exact hsortedC) (by
      rw [KnownsSorted, hsame₂.prevOf_eq, hsame₁.prevOf_eq,
        show s₁.setNeedsRecheck.longestKnowns = _ from hknowns₁]
      refine List.Pairwise.sublist (foldl_keepBest_sublist _ _) ?_
      rw [List.singleton_append, List.pairwise_cons]
      refine ⟨fun x hx => Or.inl ?_,
        (pairwise_preorder ht₀.grows (childrenOf s₀) _ _ _ _).filter _⟩
      exact (of_mem_preorder ht₀.grows (childrenOf s₀) (List.mem_of_mem_filter hx)).1)
  rw [hsame₂.firstKnown_iff, hsame₁.firstKnown_iff] at hfirst
  simp only [Bool.not_true, Bool.false_eq_true, if_false]
  have hhead : ∀ s₃ : State D, SideOnly (updatePreferredChain (orderBlockPointers
      s₁.setNeedsRecheck)) s₃ → FirstKnown s₀ (knownHead s₃) := by
    intro s₃ hs₃
    rw [knownHead, hs₃.sameHeads.knowns]
    exact hfirst
  split_ifs
  · exact hhead _ (sideOnly_stealPendingTxs _ _ _)
  · exact hhead _ (.refl _)

-- ---------------------------------------------------------------------------
-- What a complaint puts back
-- ---------------------------------------------------------------------------

section

variable [Digest D] [DecidableEq D] {E : Env D}

theorem removeTxFromHashes_pending {i j : Nat} (h : removeTxFromHashes E s b i j = .ok s') :
    s'.pending = s.pending := by
  unfold removeTxFromHashes at h
  split at h
  · injection h with h
    subst h
    exact (forgetInputs_same (E := E) _).2.2.2
  · injection h with h
    exact h ▸ rfl
  · exact absurd h (by simp)

/-- `complaint_on_all` puts back what is known of the block itself. -/
theorem complaintOn_pending {complaint : Complaint D} (h : complaintOn E complaint s b = .ok s') :
    s'.pending.pend = s.pending.pend ∧
      s'.pending.unknownTx = s.pending.unknownTx ++ blockTxs s b := by
  unfold complaintOn at h
  dsimp only at h
  have hpending : ∀ (places : List (Nat × Nat)) (s₁ s₂ : State D),
      places.foldlM (fun s place => removeTxFromHashes E s b place.1 place.2) s₁ = .ok s₂ →
      s₂.pending = s₁.pending := by
    intro places s₁ s₂ hfold
    exact foldlM_preserves (P := fun s₃ => s₃.pending = s₁.pending)
      (fun s₃ s₄ a _ h₃ h₄ => (removeTxFromHashes_pending h₄).trans h₃) rfl hfold
  rw [hpending _ _ _ h]
  have hback := blockToPending_putsBack
    (s.modBlock b fun blk => { blk with complaint := some complaint }) b
  refine ⟨hback.pend, ?_⟩
  rw [hback.unknownTx]
  congr 1
  unfold blockTxs State.shardOf Block.numShards Block.shardSize State.modBlock
  simp only [Function.update_self]

theorem complaintOn_blockTxs {complaint : Complaint D} (h : complaintOn E complaint s b = .ok s')
    (x : Nat) : blockTxs s' x = blockTxs s x := by
  have hf := (complaintOn_frame (Frame.refl E s) complaint b).of_ok h
  unfold blockTxs Block.numShards Block.shardSize
  simp only [hf.shardOf_eq, hf.hdr_eq, hf.shardNums_eq]

/-- **What `complaint_on_all` puts back.** -/
theorem complaintOnAll_pending {complaint : Complaint D}
    (h : complaintOnAll E complaint s.numBlocks s b = .ok s') :
    s'.pending.pend = s.pending.pend ∧
      s'.pending.unknownTx = s.pending.unknownTx ++ (subtree s b).flatMap (blockTxs s) := by
  rw [complaintOnAll_eq_foldlM] at h
  change (subtree s b).foldlM (complaintOn E complaint) s = .ok s' at h
  generalize subtree s b = blocks at h ⊢
  induction blocks generalizing s with
  | nil =>
    injection h with h
    subst h
    exact ⟨rfl, (List.append_nil _).symm⟩
  | cons x blocks ih =>
    rw [List.foldlM_cons] at h
    obtain ⟨s₁, hone, hrest⟩ := of_bind_eq_ok h
    obtain ⟨hpend, hunknown⟩ := complaintOn_pending hone
    obtain ⟨hpend', hunknown'⟩ := ih hrest
    refine ⟨hpend'.trans hpend, ?_⟩
    rw [hunknown', hunknown, List.flatMap_cons, List.append_assoc,
      funext (complaintOn_blockTxs hone)]

end

-- ---------------------------------------------------------------------------
-- The swap of `new_longest`
-- ---------------------------------------------------------------------------

/-- A block of that much work on `prev` makes `new_longest` move the head of the
longest knowns to one that precedes `prev`. -/
def Swaps (s : State D) (prev work : Nat) : Prop :=
  workOf s (chainHead s) ≤ work ∧
    (workOf s (chainHead s) < work ∨ ¬ Anc (prevOf s) (knownHead s) (chainHead s)) ∧
    ¬ Anc (prevOf s) (knownHead s) prev ∧ ∃ k ∈ s.longestKnowns, Anc (prevOf s) k prev

/-- The head of the longest knowns after the pointers were put in order. -/
theorem knownHead_orderBlockPointers (ht : TreeOk s) :
    (knownHead (orderBlockPointers s) = knownHead s ∧
        ∀ k ∈ s.longestKnowns, ∀ c ∈ s.longestChains, ¬ Anc (prevOf s) k c) ∨
      knownHead (orderBlockPointers s) ∈ s.longestKnowns ∧
        ∃ c ∈ s.longestChains, Anc (prevOf s) (knownHead (orderBlockPointers s)) c := by
  unfold orderBlockPointers
  cases hfind : findConnectedPair s with
  | none => exact .inl ⟨rfl, (findConnectedPair_eq_none ht).mp hfind⟩
  | some ij =>
    obtain ⟨i, j⟩ := ij
    obtain ⟨hi, hj, hpre⟩ := findConnectedPair_eq_some ht hfind
    have hhead : knownHead { s with
        longestChains := swapToFront s.longestChains i
        longestKnowns := swapToFront s.longestKnowns j } = s.longestKnowns.getD j 0 :=
      headD_swapToFront hj
    dsimp only
    rw [hhead]
    refine .inr ⟨?_, _, ?_, hpre⟩
    · rw [List.getD_eq_getElem _ _ hj]
      exact List.getElem_mem hj
    · rw [List.getD_eq_getElem _ _ hi]
      exact List.getElem_mem hi

section

variable (h : Attached s s₁ prev b) (ht : TreeOk s) (ho : HeadsOk s)
include h ht ho

/-- A longest known precedes the new block when it precedes the parent. -/
theorem Attached.known_anc_new {k : Nat} (hk : k ∈ s.longestKnowns) :
    Anc (prevOf s₁) k b ↔ Anc (prevOf s) k prev := by
  have hne := h.clean_ne (ho.knowns.clean hk)
  rw [anc_iff_eq_or_parent, h.prev_new]
  constructor
  · rintro (heq | ⟨p, hp, hkp⟩)
    · exact absurd heq hne
    · obtain rfl := Option.some.inj hp
      exact (h.anc_old ht h.prev_ne).mp hkp
  · exact fun hkp => .inr ⟨prev, rfl, (h.anc_old ht h.prev_ne).mpr hkp⟩

/-- The head after `new_longest` was given these chains. -/
theorem Attached.knownHead_newLongest {chains : List BlockId}
    (hchains : ∀ c ∈ chains, c = b ∨
      c ∈ s.longestChains ∧ ¬ Anc (prevOf s) (knownHead s) (chainHead s)) (hb : b ∈ chains) :
    let s₂ := updatePreferredChain (orderBlockPointers (notedFeatures s₁ chains b))
    ((∀ k ∈ s.longestKnowns, ¬ Anc (prevOf s) k prev) → knownHead s₂ = knownHead s) ∧
      ((∃ k ∈ s.longestKnowns, Anc (prevOf s) k prev) →
        knownHead s₂ ∈ s.longestKnowns ∧ Anc (prevOf s) (knownHead s₂) prev) := by
  obtain ⟨hsame, -, hchains₀, hknowns₀, -⟩ := notedFeatures_spec s₁ chains b
  have hknowns : (notedFeatures s₁ chains b).longestKnowns = s.longestKnowns :=
    hknowns₀.trans h.knowns
  have hhead₀ : knownHead (notedFeatures s₁ chains b) = knownHead s := by
    rw [knownHead, hknowns, knownHead]
  -- a longest known that precedes one of the chains precedes the parent
  have hpair : ∀ k ∈ s.longestKnowns, ∀ c ∈ chains,
      Anc (prevOf (notedFeatures s₁ chains b)) k c → Anc (prevOf s) k prev := by
    intro k hk c hc hkc
    rw [hsame.prevOf_eq] at hkc
    rcases hchains c hc with rfl | ⟨hc, hno⟩
    · exact (h.known_anc_new ht ho hk).mp hkc
    · rw [h.anc_old ht (h.clean_ne (ho.chains.clean hc))] at hkc
      exact absurd (ho.paired k hk c hc hkc) hno
  have hspec := knownHead_orderBlockPointers (hsame.treeOk (h.treeOk ht))
  rw [hknowns, hchains₀, hhead₀] at hspec
  show (_ → knownHead (orderBlockPointers (notedFeatures s₁ chains b)) = _) ∧ (_ →
    knownHead (orderBlockPointers (notedFeatures s₁ chains b)) ∈ _ ∧ _)
  constructor
  · intro hnone
    rcases hspec with ⟨heq, -⟩ | ⟨hmem, c, hc, hanc⟩
    · exact heq
    · exact absurd (hpair _ hmem c hc hanc) (hnone _ hmem)
  · rintro ⟨k, hk, hkp⟩
    rcases hspec with ⟨-, hno⟩ | ⟨hmem, c, hc, hanc⟩
    · refine absurd ?_ (hno k hk b hb)
      rw [hsame.prevOf_eq]
      exact (h.known_anc_new ht ho hk).mpr hkp
    · exact ⟨hmem, hpair _ hmem c hc hanc⟩

/-- **When `new_longest` moves the head of the longest knowns**, and to what. -/
theorem Attached.knownHead_compared (hclean : Clean s₁ b) :
    (¬ Swaps s prev (workOf s₁ b) → knownHead (comparedWithChains s₁ b) = knownHead s) ∧
      (Swaps s prev (workOf s₁ b) →
        knownHead (comparedWithChains s₁ b) ∈ s.longestKnowns ∧
        Anc (prevOf s) (knownHead (comparedWithChains s₁ b)) prev) := by
  have hwork : workOf s₁ (chainHead s) = workOf s (chainHead s) :=
    h.workOf_old (h.clean_ne ho.chains.head_clean)
  -- on the branch of the parent the head is the only longest known
  have hstays : Anc (prevOf s) (knownHead s) prev → ∀ k ∈ s.longestKnowns,
      Anc (prevOf s) k prev → k = knownHead s := fun hanc k hk hkp =>
    best_eq_of_anc ht ((ho.knowns.mem k).mp hk)
      ((ho.knowns.mem _).mp (headD_mem ho.knowns.ne_nil)) hkp hanc
  have hswaps : ∀ chains, (∀ c ∈ chains, c = b ∨
      c ∈ s.longestChains ∧ ¬ Anc (prevOf s) (knownHead s) (chainHead s)) → b ∈ chains →
      workOf s (chainHead s) ≤ workOf s₁ b →
      (workOf s (chainHead s) < workOf s₁ b ∨ ¬ Anc (prevOf s) (knownHead s) (chainHead s)) →
      let s₂ := updatePreferredChain (orderBlockPointers (notedFeatures s₁ chains b))
      (¬ Swaps s prev (workOf s₁ b) → knownHead s₂ = knownHead s) ∧
        (Swaps s prev (workOf s₁ b) →
          knownHead s₂ ∈ s.longestKnowns ∧ Anc (prevOf s) (knownHead s₂) prev) := by
    intro chains hchains hb hle hor
    obtain ⟨hnone, hsome⟩ := h.knownHead_newLongest ht ho hchains hb
    refine ⟨fun hno => ?_, fun hs => hsome hs.2.2.2⟩
    by_cases hex : ∃ k ∈ s.longestKnowns, Anc (prevOf s) k prev
    · have hanc : Anc (prevOf s) (knownHead s) prev := by
        by_contra hnot
        exact hno ⟨hle, hor, hnot, hex⟩
      obtain ⟨hmem, hkp⟩ := hsome hex
      exact hstays hanc _ hmem hkp
    · exact hnone fun k hk hkp => hex ⟨k, hk, hkp⟩
  by_cases hfront : Anc (prevOf s) (knownHead s) (chainHead s) ∧
      ¬ workOf s (chainHead s) < workOf s₁ b
  · obtain ⟨hpair, hle⟩ := hfront
    obtain ⟨-, -, -, -, hfronts⟩ := h.compared ht ho hclean
    refine ⟨fun _ => (hfronts hpair hle).2, fun hs => ?_⟩
    rcases hs.2.1 with hlt | hno
    · exact absurd hlt hle
    · exact absurd hpair hno
  · unfold comparedWithChains
    rw [h.chains]
    cases hcmp : cmpWork s₁ b (s.longestChains.headD 0) with
    | lt =>
      have hlt : workOf s₁ b < workOf s₁ (chainHead s) := Nat.compare_eq_lt.mp hcmp
      refine ⟨fun _ => h.knownHead_eq, fun hs => ?_⟩
      have hle := hs.1
      omega
    | gt =>
      have hgt : workOf s₁ (chainHead s) < workOf s₁ b := Nat.compare_eq_gt.mp hcmp
      dsimp only
      rw [newLongest_eq]
      exact hswaps [b] (fun c hc => .inl (List.mem_singleton.mp hc)) (List.mem_singleton_self b)
        (by omega) (.inl (by omega))
    | eq =>
      have heq : workOf s₁ b = workOf s₁ (chainHead s) := Nat.compare_eq_eq.mp hcmp
      have hpair : ¬ Anc (prevOf s) (knownHead s) (chainHead s) :=
        fun hp => hfront ⟨hp, by omega⟩
      dsimp only
      rw [newLongest_eq]
      refine hswaps (s.longestChains ++ [b]) (fun c hc => ?_) (by simp) (by omega) (.inr hpair)
      rcases List.mem_append.mp hc with hc | hc
      · exact .inr ⟨hc, hpair⟩
      · exact .inl (List.mem_singleton.mp hc)

end

-- ---------------------------------------------------------------------------
-- Adding a block
-- ---------------------------------------------------------------------------

theorem updateKnown_of_not_flagged {p : Nat} (hp : prevOf s b = some p)
    (hflag : (s.blk p).allKnown = false) : updateKnown s b = s := by
  unfold updateKnown
  rw [updateKnownRecursive_of_not_flagged _ hp hflag]
  rfl

theorem comparedWithChains_pending (s : State D) (b : Nat) :
    (comparedWithChains s b).pending = s.pending := by
  have hordered : ∀ chains, (newLongest { s with longestChains := chains } b).pending
      = s.pending := by
    intro chains
    rw [newLongest_eq]
    show (orderBlockPointers (notedFeatures s chains b)).pending = s.pending
    rw [orderBlockPointers_pending]
    exact (notedFeatures_spec s chains b).2.2.2.2
  unfold comparedWithChains
  split
  · exact hordered _
  · exact hordered _
  · rfl

/-- What is on the old branch only is pending, and the recheck is due, if the head moves. -/
def Reinstates (s s' : State D) (reinstated : Tx D → Prop) : Prop :=
  knownHead s' ≠ knownHead s →
    (∀ x tx, Anc (prevOf s') x (knownHead s) → ¬ Anc (prevOf s') x (knownHead s') →
      tx ∈ blockTxs s x → reinstated tx) ∧ s'.pending.needsRecheck = true

theorem mem_pendingTxs_of_unknown {p : PendingBlock D} {tx : Tx D} (h : tx ∈ p.unknownTx) :
    tx ∈ pendingTxs p := List.mem_append.mpr (.inr h)

theorem pendingTxs_congr {p p' : PendingBlock D} (hpend : p'.pend = p.pend)
    (hunknown : p'.unknownTx = p.unknownTx) : pendingTxs p' = pendingTxs p := by
  unfold pendingTxs
  rw [hpend, hunknown]

/-- `update_known` puts back all there is to put back. -/
theorem updateKnown_reinstates (ht : TreeOk s) (hold : knownHead s < s.numBlocks)
    (hnew : knownHead (updateKnown s b) < s.numBlocks) (hsame : SameBlocks s (updateKnown s b)) :
    Reinstates s (updateKnown s b) fun tx => tx ∈ pendingTxs (updateKnown s b).pending := by
  intro hne
  rcases updateKnown_salvaged ht hold hnew with ⟨heq, -⟩ | hs
  · exact absurd heq hne
  · obtain ⟨txs, hunknown, hmem⟩ := hs.unknownTx
    refine ⟨fun x tx hxo hxn htx => mem_pendingTxs_of_unknown ?_, hs.needsRecheck⟩
    rw [hsame.prevOf_eq] at hxo hxn
    rw [hunknown]
    exact List.mem_append.mpr (.inr ((hmem tx).mpr ⟨x, hxo, hxn, htx⟩))

theorem SameBlocks.anc_iff (h : SameBlocks s s') {x y : Nat} :
    Anc (prevOf s') x y ↔ Anc (prevOf s) x y := by rw [h.prevOf_eq]

section

variable (h : Attached s s₁ prev b) (ht : TreeOk s) (ho : HeadsOk s) (hclean : Clean s₁ b)
include h ht ho hclean

/-- Unless `new_longest` swaps the pointers, everything is put back. -/
theorem Attached.reinstates (htxs : ∀ x : Nat, x ≠ b → blockTxs s₁ x = blockTxs s x)
    (hno : ¬ Swaps s prev (workOf s₁ b)) :
    Reinstates s (updateBlockPtrsNewBlock s₁ b) fun tx =>
      tx ∈ pendingTxs (updateBlockPtrsNewBlock s₁ b).pending := by
  obtain ⟨hsame, hchains, hpend, hpaired, -⟩ := h.compared ht ho hclean
  have hhead := (h.knownHead_compared ht ho hclean).1 hno
  have hne := h.clean_ne (KnownsOk.head_clean ho.knowns)
  rw [updateBlockPtrsNewBlock_eq]
  generalize comparedWithChains s₁ b = s₂ at hsame hchains hpend hpaired hhead ⊢
  have ht₂ := hsame.treeOk (h.treeOk ht)
  have hb₂ : b < s₂.numBlocks := hsame.numBlocks ▸ hclean.1
  intro hmoved
  by_cases hall : blockAllKnown s₂ b = true
  · rw [if_pos hall] at hmoved ⊢
    obtain ⟨h₁, -, h₃, -, -⟩ := updateKnown_headsOk ht₂ hb₂ hchains hpend hpaired
    have hold : knownHead s₂ < s₂.numBlocks := by
      rw [hhead, hsame.numBlocks, h.numBlocks]
      have hlt := (KnownsOk.head_clean ho.knowns).1
      omega
    have hnew : knownHead (updateKnown s₂ b) < s₂.numBlocks :=
      h₁.numBlocks ▸ (KnownsOk.head_clean h₃).1
    obtain ⟨hback, hrecheck⟩ := updateKnown_reinstates ht₂ hold hnew h₁ (hhead.symm ▸ hmoved)
    refine ⟨fun x tx hxo hxn htx => hback x tx (hhead.symm ▸ hxo) hxn ?_, hrecheck⟩
    have hxb : x ≠ b := by
      rintro rfl
      change Anc (prevOf (updateKnown s₂ x)) x _ at hxo
      rw [h₁.anc_iff, hsame.anc_iff] at hxo
      exact hne (h.anc_new ht hxo)
    rw [hsame.blockTxs_eq, htxs x hxb]
    exact htx
  · rw [if_neg hall] at hmoved
    exact absurd hhead hmoved

/-- The longest known that a swap brings to the front has the work of the one before. -/
theorem Attached.workOf_swapped (hs : Swaps s prev (workOf s₁ b)) :
    workOf s (knownHead (comparedWithChains s₁ b)) = workOf s (knownHead s) := by
  have hA := (ho.knowns.mem _).mp (headD_mem ho.knowns.ne_nil)
  have hK := (ho.knowns.mem _).mp ((h.knownHead_compared ht ho hclean).2 hs).1
  exact Nat.le_antisymm (hA.2 _ hK.1) (hK.2 _ hA.1)

/-- If the new block is known, it is the only best one after a swap. -/
theorem Attached.knownHead_updated (hs : Swaps s prev (workOf s₁ b))
    (hbk : Known s prev ∧ blockAllKnown s₁ b = true) :
    knownHead (updateBlockPtrsNewBlock s₁ b) = b := by
  obtain ⟨hsame, hok⟩ := h.headsOk_of_clean ht ho hclean
  have hkp := ((h.knownHead_compared ht ho hclean).2 hs).2
  have hwork := h.workOf_swapped ht ho hclean hs
  have hA := (ho.knowns.mem _).mp (headD_mem ho.knowns.ne_nil)
  have hknown : Known s₁ b := (h.known_new_iff ht).mpr hbk
  have hhead := (hok.knowns.mem _).mp (headD_mem hok.knowns.ne_nil)
  rw [hsame.best_eq, hsame.clean_eq, hsame.known_eq] at hhead
  by_contra hne
  have hle := hhead.2 b ⟨hclean, hknown⟩
  change Best s₁ _ (knownHead (updateBlockPtrsNewBlock s₁ b)) at hhead
  change _ ≤ workOf s₁ (knownHead (updateBlockPtrsNewBlock s₁ b)) at hle
  rw [h.workOf_old hne] at hle
  have hleA := hA.2 _ ⟨(h.clean_old hne).mp hhead.1.1, (h.known_old ht hne).mp hhead.1.2⟩
  have hlt := h.work_new
  have hKp : workOf s (knownHead (comparedWithChains s₁ b)) ≤ workOf s prev := by
    rcases ht.anc_work hkp with heq | hlt
    · exact (congrArg (workOf s) heq).le
    · omega
  change _ ≤ workOf s (knownHead s) at hleA
  omega

/-- Then the recheck is due, but nothing is put back: the head before `update_known` is below the
new block. -/
theorem Attached.swapped_known (hs : Swaps s prev (workOf s₁ b)) (hp : s₁.pending = s.pending)
    (hbk : Known s prev ∧ blockAllKnown s₁ b = true) :
    pendingTxs (updateBlockPtrsNewBlock s₁ b).pending = pendingTxs s.pending ∧
      (updateBlockPtrsNewBlock s₁ b).pending.needsRecheck = true := by
  obtain ⟨hsame, -, -, -, -⟩ := h.compared ht ho hclean
  obtain ⟨hmem, hkp⟩ := (h.knownHead_compared ht ho hclean).2 hs
  have hpending := (comparedWithChains_pending s₁ b).trans hp
  have heq := h.knownHead_updated ht ho hclean hs hbk
  have hkne := h.clean_ne (ho.knowns.clean hmem)
  have hlt := (ho.knowns.clean hmem).1
  have hb₂ : blockAllKnown (comparedWithChains s₁ b) b = true := by
    rw [hsame.blockAllKnown_eq]
    exact hbk.2
  rw [updateBlockPtrsNewBlock_eq, if_pos hb₂] at heq ⊢
  have hKb : Anc (prevOf (comparedWithChains s₁ b)) (knownHead (comparedWithChains s₁ b)) b := by
    rw [hsame.anc_iff]
    exact (h.known_anc_new ht ho hmem).mpr hkp
  generalize comparedWithChains s₁ b = s₂ at *
  change knownHead (updateKnown s₂ b) = b at heq
  have hold : knownHead s₂ < s₂.numBlocks := by
    rw [hsame.numBlocks, h.numBlocks]
    omega
  have hnew : knownHead (updateKnown s₂ b) < s₂.numBlocks := by
    rw [heq, hsame.numBlocks]
    exact hclean.1
  rcases updateKnown_salvaged (hsame.treeOk (h.treeOk ht)) hold hnew with ⟨hstay, -⟩ | hsal
  · exact absurd (hstay.symm.trans heq) hkne
  · obtain ⟨txs, hunknown, htxs⟩ := hsal.unknownTx
    have hnil : txs = [] := by
      rw [List.eq_nil_iff_forall_not_mem]
      intro tx htx
      obtain ⟨x, hxK, hxb, -⟩ := (htxs tx).mp htx
      rw [heq] at hxb
      exact hxb (hxK.trans hKb)
    rw [hnil, List.append_nil] at hunknown
    exact ⟨(pendingTxs_congr hsal.pend hunknown).trans (by rw [hpending]), hsal.needsRecheck⟩

/-- If it is not, nothing more is known. -/
theorem Attached.updated_of_unknown (hbk : ¬ (Known s prev ∧ blockAllKnown s₁ b = true)) :
    updateBlockPtrsNewBlock s₁ b = updatePreferredChain (comparedWithChains s₁ b) := by
  obtain ⟨hsame, -, hpend, -, -⟩ := h.compared ht ho hclean
  have hpclean : Clean s prev := ⟨h.prev_lt, h.complaint_new ▸ hclean.2⟩
  rw [updateBlockPtrsNewBlock_eq]
  congr 1
  split_ifs with hall
  · rw [hsame.blockAllKnown_eq] at hall
    refine updateKnown_of_not_flagged (by rw [hsame.prevOf_eq]; exact h.prev_new) ?_
    rw [Bool.eq_false_iff]
    intro hflag
    have hk := hpend.flag_sound prev (by
      rw [hsame.clean_eq]
      exact (h.clean_old h.prev_ne).mpr hpclean) hflag
    rw [hsame.known_eq, h.known_old ht h.prev_ne] at hk
    exact hbk ⟨hk, hall⟩
  · rfl

/-- What is below the head now, of what was below it before, is what is below the new block. -/
theorem Attached.anc_swapped (hs : Swaps s prev (workOf s₁ b)) {x : Nat}
    (hx : Anc (prevOf s) x (knownHead s)) :
    Anc (prevOf s₁) x (knownHead (updateBlockPtrsNewBlock s₁ b)) ↔ Anc (prevOf s) x prev := by
  obtain ⟨hmem, hkp⟩ := (h.knownHead_compared ht ho hclean).2 hs
  have hA := (ho.knowns.mem _).mp (headD_mem ho.knowns.ne_nil)
  have hK := (ho.knowns.mem _).mp hmem
  have hAb : knownHead s ≠ b := h.clean_ne (KnownsOk.head_clean ho.knowns)
  have hkne := h.clean_ne (ho.knowns.clean hmem)
  by_cases hbk : Known s prev ∧ blockAllKnown s₁ b = true
  · rw [h.knownHead_updated ht ho hclean hs hbk, anc_iff_eq_or_parent, h.prev_new]
    constructor
    · rintro (rfl | ⟨p, hp, hxp⟩)
      · exact absurd ((h.anc_old ht hAb).mpr hx) fun hxA => hAb (h.anc_new ht hxA)
      · obtain rfl := Option.some.inj hp
        exact (h.anc_old ht h.prev_ne).mp hxp
    · exact fun hxp => .inr ⟨prev, rfl, (h.anc_old ht h.prev_ne).mpr hxp⟩
  · rw [h.updated_of_unknown ht ho hclean hbk]
    show Anc (prevOf s₁) x (knownHead (comparedWithChains s₁ b)) ↔ _
    rw [h.anc_old ht hkne]
    have hne : knownHead (comparedWithChains s₁ b) ≠ knownHead s := fun heq =>
      hs.2.2.1 (heq ▸ hkp)
    constructor
    · exact fun hxK => hxK.trans hkp
    · intro hxp
      rcases hxp.total hkp with hxK | hKx
      · exact hxK
      · exact absurd (best_eq_of_anc ht hK hA (hKx.trans hx) (Anc.refl _ _)) hne

/-- **After a swap** nothing is put back, and the recheck is due only if the new block is
known. -/
theorem Attached.swapped (hs : Swaps s prev (workOf s₁ b)) (hp : s₁.pending = s.pending) :
    pendingTxs (updateBlockPtrsNewBlock s₁ b).pending = pendingTxs s.pending ∧
      ((updateBlockPtrsNewBlock s₁ b).pending.needsRecheck = true ↔
        s.pending.needsRecheck = true ∨ Known s prev ∧ blockAllKnown s₁ b = true) ∧
      knownHead (updateBlockPtrsNewBlock s₁ b) ≠ knownHead s ∧
      ∀ x : Nat, Anc (prevOf s) x (knownHead s) →
        (Anc (prevOf (updateBlockPtrsNewBlock s₁ b)) x
          (knownHead (updateBlockPtrsNewBlock s₁ b)) ↔ Anc (prevOf s) x prev) := by
  have hsame := (h.headsOk_of_clean ht ho hclean).1
  have hanc : ∀ x : Nat, Anc (prevOf s) x (knownHead s) →
      (Anc (prevOf (updateBlockPtrsNewBlock s₁ b)) x
        (knownHead (updateBlockPtrsNewBlock s₁ b)) ↔ Anc (prevOf s) x prev) := by
    intro x hx
    rw [hsame.anc_iff]
    exact h.anc_swapped ht ho hclean hs hx
  by_cases hbk : Known s prev ∧ blockAllKnown s₁ b = true
  · obtain ⟨htxs, hrecheck⟩ := h.swapped_known ht ho hclean hs hp hbk
    refine ⟨htxs, iff_of_true hrecheck (.inr hbk), ?_, hanc⟩
    rw [h.knownHead_updated ht ho hclean hs hbk]
    exact (h.clean_ne (KnownsOk.head_clean ho.knowns)).symm
  · have hpending := (comparedWithChains_pending s₁ b).trans hp
    have hkp := ((h.knownHead_compared ht ho hclean).2 hs).2
    have hstate := h.updated_of_unknown ht ho hclean hbk
    refine ⟨?_, ?_, ?_, hanc⟩
    · rw [hstate]
      exact congrArg pendingTxs hpending
    · rw [hstate]
      show (comparedWithChains s₁ b).pending.needsRecheck = true ↔ _
      rw [hpending]
      exact (or_iff_left hbk).symm
    · rw [hstate]
      exact fun heq => hs.2.2.1 (heq ▸ hkp)

end

/-- The block with these parts loses transactions when it is added. -/
def LosesAdding (s : State D) (prev : Nat) (nb : NewBlock D) : Prop :=
  Clean s prev ∧ Swaps s prev (addedWork s prev nb) ∧
    ((∃ x tx, Anc (prevOf s) x (knownHead s) ∧ ¬ Anc (prevOf s) x prev ∧ tx ∈ blockTxs s x ∧
        tx ∉ pendingTxs s.pending) ∨
      s.pending.needsRecheck = false ∧ ¬ ((s.blk prev).allKnown = true ∧
        ∀ i < 2 ^ nb.hdr.shardOrder.toNat, (nb.shardNums[i]?.getD 0).toNat = 0))

theorem sewBlock_pending (s : State D) (prev : Nat) (nb : NewBlock D) :
    (sewBlock s prev nb).pending = s.pending := by
  unfold sewBlock
  dsimp only
  split_ifs <;> rfl

/-- The new block brings nothing that is not known, and neither does anything before it. -/
def AddsKnown (s : State D) (prev : Nat) (nb : NewBlock D) : Prop :=
  (s.blk prev).allKnown = true ∧
    ∀ i < 2 ^ nb.hdr.shardOrder.toNat, (nb.shardNums[i]?.getD 0).toNat = 0

/-- What `block_add` does to the head: nothing, below a complaint; or it puts everything back;
or it swaps the pointers. -/
inductive AddsTo (s : State D) (prev : Nat) (nb : NewBlock D) (s' : State D) : Prop
  | bad : ¬ Clean s prev → knownHead s' = knownHead s → AddsTo s prev nb s'
  | reinstates : ¬ Swaps s prev (addedWork s prev nb) →
    Reinstates s s' (fun tx => tx ∈ pendingTxs s'.pending) → AddsTo s prev nb s'
  | swapped : Clean s prev → Swaps s prev (addedWork s prev nb) →
    pendingTxs s'.pending = pendingTxs s.pending →
    (s'.pending.needsRecheck = true ↔ s.pending.needsRecheck = true ∨ AddsKnown s prev nb) →
    knownHead s' ≠ knownHead s →
    (∀ x : Nat, Anc (prevOf s') x (knownHead s) ↔ Anc (prevOf s) x (knownHead s)) →
    (∀ x : Nat, Anc (prevOf s) x (knownHead s) →
      (Anc (prevOf s') x (knownHead s') ↔ Anc (prevOf s) x prev)) → AddsTo s prev nb s'

theorem addsTo_blockAddHeads (hi : ChainInv s) {nb : NewBlock D}
    (ha : (ChainOp.addBlock prev nb).Admitted s) : AddsTo s prev nb (blockAddHeads s prev nb) := by
  obtain ⟨hprev, hdepth, hwork⟩ := ha
  have h := attached_sewBlock hprev hdepth hwork
  have hw := workOf_sewBlock nb hprev
  have hall := blockAllKnown_sewBlock nb hprev
  have hpending := sewBlock_pending s prev nb
  have htxs : ∀ x : Nat, x ≠ s.numBlocks → blockTxs (sewBlock s prev nb) x = blockTxs s x := by
    intro x hx
    unfold blockTxs State.shardOf
    rw [h.blk_old x hx]
  rw [blockAddHeads]
  by_cases hc : ((sewBlock s prev nb).blk s.numBlocks).complaint.isSome = true
  · -- a block with a complaint does not move the head
    rw [if_pos hc]
    refine .bad (fun hpc => ?_) h.knownHead_eq
    rw [h.complaint_new, hpc.2] at hc
    exact absurd hc (by simp)
  · rw [if_neg hc]
    have hclean : Clean (sewBlock s prev nb) s.numBlocks :=
      ⟨by have := h.numBlocks; omega, by simpa using hc⟩
    have hpclean : Clean s prev := ⟨h.prev_lt, h.complaint_new ▸ hclean.2⟩
    by_cases hs : Swaps s prev (workOf (sewBlock s prev nb) s.numBlocks)
    · obtain ⟨hpend, hrecheck, hne, hanc⟩ := h.swapped hi.tree hi.heads hclean hs hpending
      rw [← hi.heads.knowns.flag prev hpclean, hall] at hrecheck
      refine .swapped hpclean (hw ▸ hs) hpend hrecheck hne (fun x => ?_) hanc
      rw [(h.headsOk_of_clean hi.tree hi.heads hclean).1.anc_iff,
        h.anc_old hi.tree (h.clean_ne (KnownsOk.head_clean hi.heads.knowns))]
    · exact .reinstates (hw ▸ hs) (h.reinstates hi.tree hi.heads hclean htxs hs)

/-- **When `block_add` puts everything back.** -/
theorem blockAddHeads_reinstates_iff (hi : ChainInv s) {nb : NewBlock D}
    (ha : (ChainOp.addBlock prev nb).Admitted s) :
    Reinstates s (blockAddHeads s prev nb)
        (fun tx => tx ∈ pendingTxs (blockAddHeads s prev nb).pending) ↔
      ¬ LosesAdding s prev nb := by
  cases addsTo_blockAddHeads hi ha with
  | bad hbad hhead => exact iff_of_true (fun hne => absurd hhead hne) fun hl => hbad hl.1
  | reinstates hno hre => exact iff_of_true hre fun hl => hno hl.2.1
  | swapped hclean hs hpend hrecheck hne hold hanc =>
    constructor
    · rintro hre ⟨-, -, ⟨x, tx, hx, hxp, htx, hno⟩ | ⟨hfalse, hnk⟩⟩
      · have hback := (hre hne).1 x tx ((hold x).mpr hx) (fun hxn => hxp ((hanc x hx).mp hxn)) htx
        rw [hpend] at hback
        exact hno hback
      · rcases hrecheck.mp (hre hne).2 with htrue | hk
        · rw [hfalse] at htrue
          exact absurd htrue (by simp)
        · exact hnk hk
    · intro hno _
      refine ⟨fun x tx hx hxn htx => ?_, ?_⟩
      · rw [hold] at hx
        rw [hpend]
        by_contra hnot
        exact hno ⟨hclean, hs, .inl ⟨x, tx, hx, fun hxp => hxn ((hanc x hx).mpr hxp), htx, hnot⟩⟩
      · by_contra hnot
        rw [hrecheck, not_or] at hnot
        exact hno ⟨hclean, hs, .inr ⟨by simpa using hnot.1, hnot.2⟩⟩

/-- The block with these parts moves the head, and asks for no recheck. -/
def MovesUnasked (s : State D) (prev : Nat) (nb : NewBlock D) : Prop :=
  Clean s prev ∧ Swaps s prev (addedWork s prev nb) ∧ s.pending.needsRecheck = false ∧
    ¬ AddsKnown s prev nb

/-- **When `block_add` asks for a recheck** if it moves the head. -/
theorem blockAddHeads_asks_iff (hi : ChainInv s) {nb : NewBlock D}
    (ha : (ChainOp.addBlock prev nb).Admitted s) :
    (knownHead (blockAddHeads s prev nb) ≠ knownHead s →
      (blockAddHeads s prev nb).pending.needsRecheck = true) ↔ ¬ MovesUnasked s prev nb := by
  cases addsTo_blockAddHeads hi ha with
  | bad hbad hhead => exact iff_of_true (fun hne => absurd hhead hne) fun hu => hbad hu.1
  | reinstates hno hre => exact iff_of_true (fun hne => (hre hne).2) fun hu => hno hu.2.1
  | swapped hclean hs _ hrecheck hne _ _ =>
    constructor
    · rintro hasks ⟨-, -, hfalse, hnk⟩
      rcases hrecheck.mp (hasks hne) with htrue | hk
      · rw [hfalse] at htrue
        exact absurd htrue (by simp)
      · exact hnk hk
    · intro hno _
      by_contra hnot
      rw [hrecheck, not_or] at hnot
      exact hno ⟨hclean, hs, by simpa using hnot.1, hnot.2⟩

-- ---------------------------------------------------------------------------
-- A complaint
-- ---------------------------------------------------------------------------

theorem recalculateHeads_needsRecheck (h : Recalculable s) :
    (recalculateHeads s).pending.needsRecheck = true := by
  have hinv := h.inv
  obtain ⟨s₀, hrecalc, hsame, -, -, -, hchanged, -, hknowns⟩ :=
    recalculateHeads_start h.tree h.genesis h.flag
  rw [hrecalc] at hinv ⊢
  have ht₀ := hsame.treeOk h.tree
  have hold : knownHead s₀ < s₀.numBlocks := by
    rw [knownHead, hknowns]
    exact ht₀.genesis_lt
  have hnew : knownHead (updateKnown s₀ 0) < s₀.numBlocks := by
    rw [← (updateKnown_quiet (.refl s₀) 0).numBlocks]
    exact (KnownsOk.head_clean hinv.heads.knowns).1
  rcases updateKnown_salvaged ht₀ hold hnew with ⟨-, -, -, hrecheck⟩ | hs
  · exact hrecheck (.inr hchanged)
  · exact hs.needsRecheck

section

variable [Digest D] [DecidableEq D] {E : Env D}

/-- The complaint on this block loses transactions. -/
def LosesComplaining (s : State D) (b : BlockId) (complaint : Complaint D) : Prop :=
  Clean s b ∧ ∃ k, FirstKnown (markComplaint s b complaint) k ∧
    ∃ x tx, Anc (prevOf s) x (knownHead s) ∧ ¬ Anc (prevOf s) x k ∧ tx ∈ blockTxs s x ∧
      tx ∉ pendingTxs s.pending ∧ ∀ y, Anc (prevOf s) b y → tx ∉ blockTxs s y

/-- What `publish_complaint` gives `recheck_pending_txs` to add again. -/
def GivenToRecheck (E : Env D) (s : State D) (b : BlockId) (complaint : Complaint D)
    (tx : Tx D) : Prop :=
  ∃ s₁, complaintOnAll E complaint s.numBlocks s b = .ok s₁ ∧ tx ∈ pendingTxs s₁.pending

/-- What `publish_complaint` comes to: the heads are those of a recalculation, which asks for a
recheck. -/
structure PublishedTo (E : Env D) (s : State D) (b : BlockId) (complaint : Complaint D)
    (s' : State D) : Prop where
  tree : TreeOk (markComplaint s b complaint)
  prev : prevOf s' = prevOf s
  first : FirstKnown (markComplaint s b complaint) (knownHead s')
  asks : s'.pending.needsRecheck = true
  given : ∀ tx, GivenToRecheck E s b complaint tx ↔
    tx ∈ pendingTxs s.pending ∨ ∃ y, Anc (prevOf s) b y ∧ tx ∈ blockTxs s y

theorem publishComplaint_publishedTo (hr : Registry E s) (hrec : Recalculable s)
    (hclean : Clean s b) (hb0 : b ≠ 0) {complaint : Complaint D} {origin : Option Nat}
    (h : publishComplaint E s b complaint origin = .ok s') : PublishedTo E s b complaint s' := by
  unfold publishComplaint at h
  rw [if_neg (by simp [hclean.2])] at h
  obtain ⟨s₁, h₁, h⟩ := of_bind_eq_ok h
  obtain ⟨s₂, h₂, h⟩ := of_bind_eq_ok h
  obtain ⟨s₃, h₃, h⟩ := of_bind_eq_ok h
  injection h with h
  subst h
  have hb := hclean.1
  have hinv := hr.toLedger.complaintOnAll_spec hr.once h₁
  have hblk := hinv.blk_eq hrec.tree hb
  obtain ⟨hpend, hunknown⟩ := complaintOnAll_pending h₁
  have hcalm := (recheckPendingTxs_calm (.refl s₁)).of_ok h₂
  have hmark := hrec.markComplaint complaint ⟨hb0, hclean⟩
  have hsame₁ : SameBlocks (markComplaint s b complaint) s₁ :=
    ⟨hinv.numBlocks, fun x => by rw [hblk]⟩
  have hsame₂ := hsame₁.trans hcalm.toSameBlocks
  have hrec₂ : Recalculable s₂ :=
    (hmark.congr hsame₁ fun x => by rw [hblk]).congr hcalm.toSameBlocks hcalm.flag
  -- the heads are those of the recalculation
  unfold updateBlockPtrsInvalidated at h₃
  obtain ⟨_, -, h₃⟩ := of_bind_eq_ok h₃
  injection h₃ with h₃
  have hforget := sideOnly_forgetAboutAll (recalculateHeads s₂).numBlocks (recalculateHeads s₂) b
  have hquiet := forgetAboutAll_quiet (recalculateHeads s₂).numBlocks (.refl (recalculateHeads s₂)) b
  have hhead : knownHead (s₃.emit (.broadcastToPeers complaint origin))
      = knownHead (recalculateHeads s₂) := by
    rw [← h₃]
    show (forgetAboutAll _ _ b).longestKnowns.headD 0 = _
    rw [hforget.sameHeads.knowns]
    rfl
  have hfirst := firstKnown_recalculateHeads hrec₂
  rw [hsame₂.firstKnown_iff, ← hhead] at hfirst
  refine ⟨hmark.tree, ?_, hfirst, ?_, fun tx => ?_⟩
  · rw [← h₃]
    show prevOf (forgetAboutAll _ _ b) = _
    rw [hforget.sameHeads.toSameBlocks.prevOf_eq,
      (recalculateHeads_headsOk hrec₂.tree hrec₂.genesis hrec₂.flag).1.prevOf_eq,
      hsame₂.prevOf_eq, prevOf_markComplaint]
  · rw [← h₃]
    obtain ⟨txs, hs⟩ := hquiet.salvages
    exact hs.needsRecheck (.inl (recalculateHeads_needsRecheck hrec₂))
  · -- what the recheck is given
    have hmem : tx ∈ pendingTxs s₁.pending ↔
        tx ∈ pendingTxs s.pending ∨ ∃ y, Anc (prevOf s) b y ∧ tx ∈ blockTxs s y := by
      unfold pendingTxs
      rw [hpend, hunknown, ← List.append_assoc, List.mem_append, List.mem_flatMap]
      simp only [mem_subtree hrec.tree hb]
    constructor
    · rintro ⟨s₁', h₁', htx⟩
      rw [h₁] at h₁'
      injection h₁' with h₁'
      exact hmem.mp (h₁' ▸ htx)
    · exact fun htx => ⟨s₁, h₁, hmem.mpr htx⟩

/-- A second complaint changes nothing. -/
theorem publishComplaint_again (hc : (s.blk b).complaint.isSome = true)
    {complaint : Complaint D} {origin : Option Nat}
    (h : publishComplaint E s b complaint origin = .ok s') : s' = s := by
  unfold publishComplaint at h
  rw [if_pos hc] at h
  exact (Except.ok.inj h).symm

/-- **When `publish_complaint` puts everything back.** -/
theorem publishComplaint_reinstates_iff (hr : Registry E s) (hrec : Recalculable s)
    (hb : b < s.numBlocks) (hb0 : b ≠ 0) {complaint : Complaint D} {origin : Option Nat}
    (h : publishComplaint E s b complaint origin = .ok s') :
    Reinstates s s' (GivenToRecheck E s b complaint) ↔ ¬ LosesComplaining s b complaint := by
  by_cases hc : (s.blk b).complaint.isSome = true
  · obtain rfl := publishComplaint_again hc h
    refine iff_of_true (fun hne => absurd rfl hne) ?_
    rintro ⟨hclean, -⟩
    rw [hclean.2] at hc
    exact absurd hc (by simp)
  · have hclean : Clean s b := ⟨hb, by simpa using hc⟩
    have hpub := publishComplaint_publishedTo hr hrec hclean hb0 h
    unfold Reinstates
    rw [hpub.prev]
    constructor
    · rintro hre ⟨-, k, hk, x, tx, hx, hxk, htx, hno, hsub⟩
      obtain rfl := hk.unique hpub.tree hpub.first
      have hne : knownHead s' ≠ knownHead s := by
        intro heq
        rw [heq] at hxk
        exact hxk hx
      rcases (hpub.given tx).mp ((hre hne).1 x tx hx hxk htx) with hp | ⟨y, hy, hty⟩
      · exact hno hp
      · exact hsub y hy hty
    · intro hno _
      refine ⟨fun x tx hx hxn htx => ?_, hpub.asks⟩
      by_contra hnot
      rw [hpub.given, not_or] at hnot
      exact hno ⟨hclean, _, hpub.first, x, tx, hx, hxn, htx, hnot.1,
        fun y hy hty => hnot.2 ⟨y, hy, hty⟩⟩

/-- A complaint that moves the head asks for a recheck. -/
theorem publishComplaint_asks (hr : Registry E s) (hrec : Recalculable s) (hb : b < s.numBlocks)
    (hb0 : b ≠ 0) {complaint : Complaint D} {origin : Option Nat}
    (h : publishComplaint E s b complaint origin = .ok s') (hne : knownHead s' ≠ knownHead s) :
    s'.pending.needsRecheck = true := by
  by_cases hc : (s.blk b).complaint.isSome = true
  · exact absurd (congrArg knownHead (publishComplaint_again hc h)) hne
  · exact (publishComplaint_publishedTo hr hrec ⟨hb, by simpa using hc⟩ hb0 h).asks

end

end Pettycoin
