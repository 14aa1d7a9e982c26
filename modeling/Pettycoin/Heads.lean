import Pettycoin.Tree
import Mathlib.Data.List.GetD

/-!
# Pettycoin — the heads of the chains

What `longest_chains`, `longest_knowns` and `preferred_chain` are meant to be,
as sets over the block tree (`HeadsOk`), and what each function of `chain.c`
does to them:

* `orderBlockPointers_core` — moves a connected pair to the front;
* `updatePreferredChain_ok` — picks the first, in depth-first order, of the
  blocks with most work below the longest known;
* `updateKnownRecursive_eq_markKnown` — flags the blocks below that have become
  known, and keeps the best of them.
-/

namespace Pettycoin

open Forest KeepBest

variable {D : Type}

-- ---------------------------------------------------------------------------
-- What the heads are for
-- ---------------------------------------------------------------------------

/-- The whole ancestry of a block is fully known. -/
def Known (s : State D) (b : Nat) : Prop :=
  ∀ a : Nat, Anc (prevOf s) a b → blockAllKnown s a = true

/-- A block of maximal work among those that satisfy `P`. -/
def Best (s : State D) (P : Nat → Prop) (b : Nat) : Prop :=
  P b ∧ ∀ c : Nat, P c → workOf s c ≤ workOf s b

/-- `longest_chains[0]`. -/
def chainHead (s : State D) : Nat := s.longestChains.headD 0

/-- `longest_knowns[0]`. -/
def knownHead (s : State D) : Nat := s.longestKnowns.headD 0

/-- `longest_chains` holds the clean blocks of maximal work. -/
structure ChainsOk (s : State D) : Prop where
  ne_nil : s.longestChains ≠ []
  mem : ∀ b : Nat, b ∈ s.longestChains ↔ Best s (Clean s) b

/-- `longest_knowns` holds the clean blocks of maximal work among those whose
ancestry is known, and the flags say which those are. -/
structure KnownsOk (s : State D) : Prop where
  ne_nil : s.longestKnowns ≠ []
  mem : ∀ b : Nat, b ∈ s.longestKnowns ↔ Best s (fun x => Clean s x ∧ Known s x) b
  flag : ∀ b : Nat, Clean s b → ((s.blk b).allKnown = true ↔ Known s b)

/-- If a longest known precedes a longest chain, the first ones do. -/
def Paired (s : State D) : Prop :=
  ∀ k ∈ s.longestKnowns, ∀ c ∈ s.longestChains, Anc (prevOf s) k c →
    Anc (prevOf s) (knownHead s) (chainHead s)

/-- `preferred_chain` is, of the clean descendants of `longest_knowns[0]`, the
first with maximal work. -/
structure PreferredOk (s : State D) : Prop where
  best : Best s (fun x => Clean s x ∧ Anc (prevOf s) (knownHead s) x) s.preferredChain
  first : ∀ c : Nat, Clean s c → Anc (prevOf s) (knownHead s) c →
    workOf s c = workOf s s.preferredChain → ¬ Fork (prevOf s) c s.preferredChain

/-- All that the heads are for. -/
structure HeadsOk (s : State D) : Prop where
  chains : ChainsOk s
  knowns : KnownsOk s
  paired : Paired s
  preferred : PreferredOk s

-- ---------------------------------------------------------------------------
-- States with the same blocks
-- ---------------------------------------------------------------------------

/-- The same blocks, but for the flags that they are known. -/
structure SameBlocks (s s' : State D) : Prop where
  numBlocks : s'.numBlocks = s.numBlocks
  blk : ∀ b : Nat, s'.blk b = { s.blk b with allKnown := (s'.blk b).allKnown }

theorem SameBlocks.refl (s : State D) : SameBlocks s s := ⟨rfl, fun _ => rfl⟩

variable {s s' s'' : State D} {b c : Nat}

theorem SameBlocks.trans (h : SameBlocks s s') (h' : SameBlocks s' s'') : SameBlocks s s'' where
  numBlocks := h'.numBlocks.trans h.numBlocks
  blk b := by
    rw [h'.blk b, h.blk b]

theorem SameBlocks.prevOf_eq (h : SameBlocks s s') : prevOf s' = prevOf s := by
  funext b
  rw [prevOf, h.blk b, prevOf]

theorem SameBlocks.workOf_eq (h : SameBlocks s s') : workOf s' = workOf s := by
  funext b
  rw [workOf, h.blk b, workOf]

theorem SameBlocks.complaint_eq (h : SameBlocks s s') (b : Nat) :
    (s'.blk b).complaint = (s.blk b).complaint := by
  rw [h.blk b]

theorem SameBlocks.hdr_eq (h : SameBlocks s s') (b : Nat) : (s'.blk b).hdr = (s.blk b).hdr := by
  rw [h.blk b]

theorem SameBlocks.shardOf_eq (h : SameBlocks s s') (b : Nat) : s'.shardOf b = s.shardOf b := by
  funext i
  rw [State.shardOf, h.blk b, State.shardOf]

theorem SameBlocks.clean_eq (h : SameBlocks s s') : Clean s' = Clean s := by
  funext b
  rw [Clean, h.numBlocks, h.complaint_eq, Clean]

theorem SameBlocks.blockAllKnown_eq (h : SameBlocks s s') : blockAllKnown s' = blockAllKnown s := by
  funext b
  rw [blockAllKnown, blockAllKnown, Block.numShards, h.hdr_eq, h.shardOf_eq, Block.numShards]

theorem SameBlocks.known_eq (h : SameBlocks s s') : Known s' = Known s := by
  funext b
  rw [Known, Known, h.prevOf_eq, h.blockAllKnown_eq]

theorem SameBlocks.children_eq (h : SameBlocks s s') : s'.children = s.children := by
  funext b
  rw [State.children, State.children, h.numBlocks]
  congr 1
  funext c
  rw [h.blk c]

theorem SameBlocks.best_eq (h : SameBlocks s s') : Best s' = Best s := by
  funext P b
  rw [Best, Best, h.workOf_eq]

theorem SameBlocks.treeOk (h : SameBlocks s s') (ht : TreeOk s) : TreeOk s' where
  genesis_lt := h.numBlocks ▸ ht.genesis_lt
  genesis_prev := h.prevOf_eq ▸ ht.genesis_prev
  beyond := by
    rw [h.prevOf_eq, h.numBlocks]
    exact ht.beyond
  has_prev := by
    rw [h.prevOf_eq, h.numBlocks]
    exact ht.has_prev
  prev_lt := h.prevOf_eq ▸ ht.prev_lt
  depth_genesis := by
    rw [h.blk 0]
    exact ht.depth_genesis
  depth_prev := by
    intro b p hp
    rw [h.prevOf_eq] at hp
    rw [h.blk b, h.blk p]
    exact ht.depth_prev b p hp
  work_prev := by
    rw [h.prevOf_eq, h.workOf_eq]
    exact ht.work_prev
  complaint_genesis := (h.complaint_eq 0).trans ht.complaint_genesis
  complaint_prev := by
    intro b p hp
    rw [h.prevOf_eq] at hp
    rw [h.complaint_eq, h.complaint_eq]
    exact ht.complaint_prev b p hp

/-- The same blocks and the same heads. -/
structure SameHeads (s s' : State D) : Prop extends SameBlocks s s' where
  flag : ∀ b : Nat, Clean s b → (s'.blk b).allKnown = (s.blk b).allKnown
  chains : s'.longestChains = s.longestChains
  knowns : s'.longestKnowns = s.longestKnowns
  preferred : s'.preferredChain = s.preferredChain

theorem SameHeads.headsOk (h : SameHeads s s') (ho : HeadsOk s) : HeadsOk s' where
  chains :=
    { ne_nil := h.chains ▸ ho.chains.ne_nil
      mem := by
        rw [h.chains, h.best_eq, h.clean_eq]
        exact ho.chains.mem }
  knowns :=
    { ne_nil := h.knowns ▸ ho.knowns.ne_nil
      mem := by
        rw [h.knowns, h.best_eq, h.clean_eq, h.known_eq]
        exact ho.knowns.mem
      flag := by
        intro b hb
        rw [h.clean_eq] at hb
        rw [h.known_eq, h.flag b hb]
        exact ho.knowns.flag b hb }
  paired := by
    rw [Paired, knownHead, chainHead, h.chains, h.knowns, h.prevOf_eq]
    exact ho.paired
  preferred :=
    { best := by
        rw [knownHead, h.knowns, h.preferred, h.best_eq, h.clean_eq, h.prevOf_eq]
        exact ho.preferred.best
      first := by
        rw [knownHead, h.knowns, h.preferred, h.clean_eq, h.prevOf_eq, h.workOf_eq]
        exact ho.preferred.first }

-- ---------------------------------------------------------------------------
-- Ordering the pointers
-- ---------------------------------------------------------------------------

theorem findConnectedPair_eq_some (ht : TreeOk s) {i j : Nat}
    (h : findConnectedPair s = some (i, j)) :
    i < s.longestChains.length ∧ j < s.longestKnowns.length ∧
      Anc (prevOf s) (s.longestKnowns.getD j 0) (s.longestChains.getD i 0) := by
  have hpair := List.find?_some h
  have hmem := List.mem_of_find?_eq_some h
  rw [List.mem_flatMap] at hmem
  obtain ⟨i', hi', hmem⟩ := hmem
  obtain ⟨j', hj', heq⟩ := List.mem_map.mp hmem
  injection heq with hi hj
  subst hi hj
  exact ⟨List.mem_range.mp hi', List.mem_range.mp hj', (blockPreceeds_iff ht).mp hpair⟩

theorem findConnectedPair_eq_none (ht : TreeOk s) :
    findConnectedPair s = none ↔
      ∀ k ∈ s.longestKnowns, ∀ c ∈ s.longestChains, ¬ Anc (prevOf s) k c := by
  rw [findConnectedPair, List.find?_eq_none]
  constructor
  · intro h k hk c hc hkc
    obtain ⟨j, hj, rfl⟩ := List.getElem_of_mem hk
    obtain ⟨i, hi, rfl⟩ := List.getElem_of_mem hc
    refine h (i, j) (List.mem_flatMap.mpr ⟨i, List.mem_range.mpr hi,
      List.mem_map.mpr ⟨j, List.mem_range.mpr hj, rfl⟩⟩) ?_
    rw [List.getD_eq_getElem _ _ hi, List.getD_eq_getElem _ _ hj]
    exact (blockPreceeds_iff ht).mpr hkc
  · intro h ij hij hpre
    obtain ⟨i, hi, hmem⟩ := List.mem_flatMap.mp hij
    obtain ⟨j, hj, rfl⟩ := List.mem_map.mp hmem
    rw [List.mem_range] at hi hj
    rw [List.getD_eq_getElem _ _ hi, List.getD_eq_getElem _ _ hj] at hpre
    exact h _ (List.getElem_mem hj) _ (List.getElem_mem hi) ((blockPreceeds_iff ht).mp hpre)

theorem swapToFront_perm {l : List BlockId} {i : Nat} (h : i < l.length) :
    (swapToFront l i).Perm l := by
  have h0 : 0 < l.length := by omega
  rw [swapToFront, List.getD_eq_getElem _ _ h, List.getD_eq_getElem _ _ h0]
  exact List.set_set_perm h0 h

theorem headD_swapToFront {l : List BlockId} {i : Nat} (h : i < l.length) :
    (swapToFront l i).headD 0 = l.getD i 0 := by
  rw [swapToFront]
  cases l with
  | nil => simp at h
  | cons x l =>
    cases i with
    | zero => simp
    | succ i => simp

/-- What `order_block_pointers` does to the heads. -/
theorem orderBlockPointers_spec (ht : TreeOk s) :
    SameBlocks s (orderBlockPointers s) ∧
      (∀ b, ((orderBlockPointers s).blk b).allKnown = (s.blk b).allKnown) ∧
      (orderBlockPointers s).longestChains.Perm s.longestChains ∧
      (orderBlockPointers s).longestKnowns.Perm s.longestKnowns ∧
      Paired (orderBlockPointers s) := by
  rw [orderBlockPointers]
  cases h : findConnectedPair s with
  | none =>
    refine ⟨SameBlocks.refl s, fun _ => rfl, List.Perm.refl _, List.Perm.refl _, ?_⟩
    intro k hk c hc hkc
    exact absurd hkc ((findConnectedPair_eq_none ht).mp h k hk c hc)
  | some ij =>
    obtain ⟨i, j⟩ := ij
    obtain ⟨hi, hj, hpre⟩ := findConnectedPair_eq_some ht h
    refine ⟨⟨rfl, fun _ => rfl⟩, fun _ => rfl, swapToFront_perm hi, swapToFront_perm hj, ?_⟩
    intro _ _ _ _ _
    simp only [knownHead, chainHead, headD_swapToFront hi, headD_swapToFront hj]
    exact hpre

/-- A pair that is in front already stays there. -/
theorem orderBlockPointers_fronts (ht : TreeOk s) (hc : s.longestChains ≠ [])
    (hk : s.longestKnowns ≠ []) (hpair : Anc (prevOf s) (knownHead s) (chainHead s)) :
    chainHead (orderBlockPointers s) = chainHead s ∧
      knownHead (orderBlockPointers s) = knownHead s := by
  rw [knownHead, chainHead] at hpair
  have hfind : findConnectedPair s = some (0, 0) := by
    rw [findConnectedPair]
    obtain ⟨c, cs, hcs⟩ := List.exists_cons_of_ne_nil hc
    obtain ⟨k, ks, hks⟩ := List.exists_cons_of_ne_nil hk
    rw [hcs, hks] at hpair
    rw [hcs, hks, List.length_cons, List.length_cons, List.range_succ_eq_map,
      List.range_succ_eq_map]
    simp only [List.flatMap_cons, List.map_cons, List.cons_append]
    rw [List.find?_cons_of_pos]
    simp only [List.getD_cons_zero]
    exact (blockPreceeds_iff ht).mpr hpair
  have h0c : 0 < s.longestChains.length := List.length_pos_of_ne_nil hc
  have h0k : 0 < s.longestKnowns.length := List.length_pos_of_ne_nil hk
  rw [orderBlockPointers, hfind, chainHead, knownHead, chainHead, knownHead]
  simp only [headD_swapToFront h0c, headD_swapToFront h0k]
  exact ⟨by cases s.longestChains <;> rfl, by cases s.longestKnowns <;> rfl⟩

theorem ChainsOk.congr (h : SameBlocks s s') (hp : s'.longestChains.Perm s.longestChains)
    (ho : ChainsOk s) : ChainsOk s' where
  ne_nil hnil := ho.ne_nil (by rw [hnil] at hp; exact hp.nil_eq.symm)
  mem b := by
    rw [hp.mem_iff, ho.mem b, h.best_eq, h.clean_eq]

theorem KnownsOk.congr (h : SameBlocks s s')
    (hf : ∀ b, (s'.blk b).allKnown = (s.blk b).allKnown)
    (hp : s'.longestKnowns.Perm s.longestKnowns) (ho : KnownsOk s) : KnownsOk s' where
  ne_nil hnil := ho.ne_nil (by rw [hnil] at hp; exact hp.nil_eq.symm)
  mem b := by
    rw [hp.mem_iff, ho.mem b, h.best_eq, h.clean_eq, h.known_eq]
  flag b hb := by
    rw [h.clean_eq] at hb
    rw [hf, h.known_eq]
    exact ho.flag b hb

-- ---------------------------------------------------------------------------
-- Picking the preferred chain
-- ---------------------------------------------------------------------------

/-- The blocks of a level head. -/
theorem headD_mem {l : List BlockId} (h : l ≠ []) : l.headD 0 ∈ l := by
  obtain ⟨x, l, rfl⟩ := List.exists_cons_of_ne_nil h
  exact List.mem_cons_self

theorem head?_eq_headD {l : List BlockId} (h : l ≠ []) : l.head? = some (l.headD 0) := by
  obtain ⟨x, l, rfl⟩ := List.exists_cons_of_ne_nil h
  rfl

/-- `update_preferred_chain` picks the first of the blocks of maximal work. -/
theorem updatePreferredChain_ok (ht : TreeOk s) (hk : Clean s (knownHead s)) :
    PreferredOk (updatePreferredChain s) := by
  have hmem : ∀ {c : Nat}, c ∈ cleanSearch s s.numBlocks (knownHead s) ↔
      Clean s c ∧ Anc (prevOf s) (knownHead s) c := mem_cleanSearch ht hk.1
  have hlevel : Level (workOf s) [knownHead s] := level_singleton _
  have hpref : (updatePreferredChain s).preferredChain
      = ((cleanSearch s s.numBlocks (knownHead s)).foldl (keepBest (workOf s))
          [knownHead s]).headD 0 := by
    rw [updatePreferredChain, findLongestDescendents_eq_foldl, ← foldl_keepBestWork hlevel]
    rfl
  have hne := (level_foldl_keepBest hlevel (cleanSearch s s.numBlocks (knownHead s))).ne_nil
  have hhead := head?_eq_headD hne
  rw [← hpref] at hhead
  have hin := headD_mem hne
  rw [← hpref, mem_foldl_keepBest hlevel] at hin
  obtain ⟨hin, hmax⟩ := hin
  constructor
  · refine ⟨?_, fun c hc => hmax c (Or.inr (hmem.mpr hc))⟩
    rcases hin with hin | hin
    · rw [List.mem_singleton] at hin
      rw [hin]
      exact ⟨hk, Anc.refl _ _⟩
    · exact hmem.mp hin
  · intro c hc hkc hwork hfork
    obtain ⟨l₁, l₂, hsplit, hbefore⟩ := head_foldl_keepBest hhead
    -- everything listed before the head has less work, so `c` comes after it
    have hpair := pairwise_preorder ht.grows (childrenOf s)
      (fun x => (s.blk x).complaint.isNone) (fun _ => true) s.numBlocks (knownHead s)
    have hin' : c ∈ l₁ ++ (updatePreferredChain s).preferredChain :: l₂ := by
      rw [← hsplit]
      exact List.mem_cons_of_mem _ (hmem.mpr ⟨hc, hkc⟩)
    change workOf s c = workOf s (updatePreferredChain s).preferredChain at hwork
    change Fork (prevOf s) c (updatePreferredChain s).preferredChain at hfork
    generalize (updatePreferredChain s).preferredChain = m at *
    have hne' : c ≠ m := by
      rintro rfl
      exact not_anc_of_fork ht.grows hfork (Anc.refl _ _)
    have hafter : c ∈ l₂ := by
      rcases List.mem_append.mp hin' with h | h
      · have := hbefore c h
        omega
      · rcases List.mem_cons.mp h with h | h
        · exact absurd h hne'
        · exact h
    have hrel : Anc (prevOf s) m c ∨ Fork (prevOf s) m c := by
      cases l₁ with
      | nil =>
        injection hsplit with hkm hl
        exact Or.inl (hkm ▸ hkc)
      | cons x l₁ =>
        injection hsplit with _ hl
        have hl' : cleanSearch s s.numBlocks (knownHead s) = l₁ ++ m :: l₂ := hl
        change (cleanSearch s s.numBlocks (knownHead s)).Pairwise _ at hpair
        rw [hl', List.pairwise_append] at hpair
        exact (List.pairwise_cons.mp hpair.2.1).1 c hafter
    rcases hrel with h | h
    · rcases ht.anc_work h with heq | hlt
      · exact hne' heq.symm
      · omega
    · exact h.asymm ht.grows hfork

-- ---------------------------------------------------------------------------
-- Learning that blocks are known
-- ---------------------------------------------------------------------------

/-- The blocks `update_known_recursive` flags from `b` down. -/
def knownSearch (s : State D) (fuel : Nat) (b : Nat) : List BlockId :=
  preorder s.children (blockAllKnown s) (fun x => (s.blk x).complaint.isNone) fuel b

/-- Flag the listed blocks as known and keep the best of the clean ones. -/
def markKnown (s : State D) (l : List BlockId) : State D :=
  { s with
    blk := fun x => if x ∈ l then { s.blk x with allKnown := true } else s.blk x
    longestKnowns :=
      (l.filter fun x => (s.blk x).complaint.isNone).foldl (keepBestWork s) s.longestKnowns }

theorem sameBlocks_markKnown (s : State D) (l : List BlockId) : SameBlocks s (markKnown s l) where
  numBlocks := rfl
  blk b := by
    simp only [markKnown]
    split_ifs <;> rfl

theorem flag_markKnown (s : State D) (l : List BlockId) (b : Nat) :
    ((markKnown s l).blk b).allKnown = true ↔ (s.blk b).allKnown = true ∨ b ∈ l := by
  simp only [markKnown]
  split_ifs with h <;> simp [h]

theorem SameBlocks.keepBestWork_eq (h : SameBlocks s s') : keepBestWork s' = keepBestWork s := by
  have hwork : ∀ b, (s'.blk b).totalWork = (s.blk b).totalWork := fun b => by rw [h.blk b]
  funext bests b
  rw [keepBestWork, keepBestWork, cmpWork, cmpWork, hwork, hwork]

theorem SameBlocks.knownSearch_eq (h : SameBlocks s s') (fuel : Nat) :
    knownSearch s' fuel = knownSearch s fuel := by
  funext b
  rw [knownSearch, knownSearch, h.children_eq, h.blockAllKnown_eq]
  congr 1
  funext x
  rw [h.complaint_eq]

theorem markKnown_nil (s : State D) : markKnown s [] = s := by
  simp [markKnown]

theorem markKnown_markKnown (s : State D) (l l' : List BlockId) :
    markKnown (markKnown s l) l' = markKnown s (l ++ l') := by
  have hsame := sameBlocks_markKnown s l
  have hblk : (fun x => if x ∈ l' then { (markKnown s l).blk x with allKnown := true }
        else (markKnown s l).blk x)
      = fun x => if x ∈ l ++ l' then { s.blk x with allKnown := true } else s.blk x := by
    funext x
    simp only [markKnown, List.mem_append]
    by_cases hl : x ∈ l <;> by_cases hl' : x ∈ l' <;> simp [hl, hl']
  have hknowns : (l'.filter fun x => ((markKnown s l).blk x).complaint.isNone).foldl
        (keepBestWork (markKnown s l)) (markKnown s l).longestKnowns
      = ((l ++ l').filter fun x => (s.blk x).complaint.isNone).foldl (keepBestWork s)
          s.longestKnowns := by
    rw [hsame.keepBestWork_eq, List.filter_append, List.foldl_append]
    simp only [hsame.complaint_eq]
    rfl
  rw [markKnown, hblk, hknowns]
  rfl

/-- Flagging one clean block is a step of `update_known_recursive`. -/
theorem markKnown_singleton (h : (s.blk b).complaint = none) :
    markKnown s [b]
      = { s.modBlock b fun blk => { blk with allKnown := true } with
          longestKnowns := keepBestWork s s.longestKnowns b } := by
  have hblk : (fun x => if x ∈ [b] then { s.blk x with allKnown := true } else s.blk x)
      = Function.update s.blk b { s.blk b with allKnown := true } := by
    funext x
    by_cases hx : x = b
    · subst hx
      simp
    · simp [hx]
  rw [markKnown, hblk]
  simp [h, State.modBlock]

theorem markKnown_singleton_of_complaint (h : (s.blk b).complaint.isSome) :
    markKnown s [b] = s.modBlock b fun blk => { blk with allKnown := true } := by
  have hblk : (fun x => if x ∈ [b] then { s.blk x with allKnown := true } else s.blk x)
      = Function.update s.blk b { s.blk b with allKnown := true } := by
    funext x
    by_cases hx : x = b
    · subst hx
      simp
    · simp [hx]
  rw [markKnown, hblk]
  have hnone : (s.blk b).complaint.isNone = false := by
    rw [Option.isNone_eq_false_iff]
    exact h
  simp [hnone, State.modBlock]

/-- From a block whose parent is flagged, `update_known_recursive` flags what its
search meets, and says it changed nothing only if it did not change
`longest_knowns`. -/
theorem updateKnownRecursive_eq_markKnown (fuel : Nat)
    (hprev : ∀ p : Nat, prevOf s b = some p → (s.blk p).allKnown = true) :
    (updateKnownRecursive fuel s b).1 = markKnown s (knownSearch s fuel b) ∧
      ((updateKnownRecursive fuel s b).2 = false →
        (updateKnownRecursive fuel s b).1.longestKnowns = s.longestKnowns) := by
  induction fuel generalizing s b with
  | zero => exact ⟨(markKnown_nil s).symm, fun _ => rfl⟩
  | succ fuel ih =>
    have hgate : ((s.blk b).prev.any fun p => !(s.blk p).allKnown) = false := by
      cases hp : (s.blk b).prev with
      | none => rfl
      | some p => simpa using hprev p hp
    rw [updateKnownRecursive, hgate, knownSearch, preorder]
    cases hall : blockAllKnown s b with
    | false => exact ⟨by simp [markKnown_nil], fun _ => by simp⟩
    | true =>
      simp only [Bool.false_eq_true, if_false, Bool.not_true, if_true]
      have hcomplaint : ((s.modBlock b fun blk => { blk with allKnown := true }).blk b).complaint
          = (s.blk b).complaint := by
        simp [State.modBlock]
      rw [hcomplaint]
      cases hc : (s.blk b).complaint with
      | some m =>
        simp only [Option.isSome_some, if_true, Option.isNone_some, Bool.false_eq_true, if_false]
        exact ⟨(markKnown_singleton_of_complaint (by rw [hc]; rfl)).symm, fun _ => rfl⟩
      | none =>
        simp only [Option.isSome_none, Bool.false_eq_true, if_false, Option.isNone_none, if_true]
        have hsame₁ := sameBlocks_markKnown s [b]
        have hmark := markKnown_singleton hc
        have hsame₀ : SameBlocks s (s.modBlock b fun blk => { blk with allKnown := true }) := by
          have := sameBlocks_markKnown s [b]
          rw [hmark] at this
          exact ⟨this.numBlocks, this.blk⟩
        -- the children are visited one by one, below a block that is flagged
        have visit : ∀ (l m : List BlockId) (ch : Bool), b ∈ m →
            (∀ c ∈ l, prevOf s c = some b) →
            (l.foldl (fun acc b =>
                let r := updateKnownRecursive fuel acc.1 b
                (r.1, acc.2 || r.2)) (markKnown s m, ch)).1
              = markKnown s (m ++ l.flatMap (knownSearch s fuel)) ∧
            ((l.foldl (fun acc b =>
                let r := updateKnownRecursive fuel acc.1 b
                (r.1, acc.2 || r.2)) (markKnown s m, ch)).2 = false →
              ch = false ∧
              (l.foldl (fun acc b =>
                let r := updateKnownRecursive fuel acc.1 b
                (r.1, acc.2 || r.2)) (markKnown s m, ch)).1.longestKnowns
                = (markKnown s m).longestKnowns) := by
          intro l
          induction l with
          | nil =>
            intro m ch _ _
            exact ⟨by simp, fun h => ⟨h, rfl⟩⟩
          | cons c l ihl =>
            intro m ch hbm hl
            have hsame := sameBlocks_markKnown s m
            have hstep := ih (s := markKnown s m) (b := c) (by
              intro p hp
              rw [hsame.prevOf_eq, hl c List.mem_cons_self] at hp
              injection hp with hp
              subst hp
              exact (flag_markKnown s m b).mpr (Or.inr hbm))
            rw [hsame.knownSearch_eq, markKnown_markKnown] at hstep
            simp only [List.foldl_cons]
            obtain ⟨hrest, hchanged⟩ := ihl (m ++ knownSearch s fuel c)
              (ch || (updateKnownRecursive fuel (markKnown s m) c).2)
              (List.mem_append_left _ hbm) fun x hx => hl x (List.mem_cons_of_mem _ hx)
            rw [← hstep.1] at hrest hchanged
            refine ⟨?_, fun h => ?_⟩
            · rw [hrest, List.flatMap_cons, List.append_assoc]
            · obtain ⟨hor, hknowns⟩ := hchanged h
              rw [Bool.or_eq_false_iff] at hor
              exact ⟨hor.1, hknowns.trans (hstep.2 hor.2)⟩
        have hinit : ({ s.modBlock b fun blk => { blk with allKnown := true } with
              longestKnowns := keepBestWork (s.modBlock b fun blk => { blk with allKnown := true })
                s.longestKnowns b } : State D) = markKnown s [b] := by
          rw [hmark, hsame₀.keepBestWork_eq]
        have hchildren : (s.modBlock b fun blk => { blk with allKnown := true }).children b
            = s.children b := by rw [hsame₀.children_eq]
        obtain ⟨hstate, hchanged⟩ := visit (s.children b) [b]
          (cmpWork (s.modBlock b fun blk => { blk with allKnown := true }) b
            (s.longestKnowns.headD 0) != .lt) List.mem_cons_self
          (fun c hc => (mem_children.mp hc).2)
        rw [← hinit] at hstate hchanged
        refine ⟨?_, fun h => ?_⟩
        · rw [← hchildren] at hstate
          exact hstate.trans (by rw [hchildren]; rfl)
        · obtain ⟨hlt, hknowns⟩ := hchanged (by rw [← hchildren]; exact h)
          rw [← hchildren] at hknowns
          refine hknowns.trans ?_
          have hlt' : cmpWork (s.modBlock b fun blk => { blk with allKnown := true }) b
              (s.longestKnowns.headD 0) = .lt := by simpa using hlt
          simp only [keepBestWork, hlt']

/-- What must hold for `update_known` to get `longest_knowns` right from `b`:
only clean known blocks were kept so far, and what is not flagged or not
accounted for lies below `b`. -/
structure KnownsPending (s : State D) (b : Nat) : Prop where
  level : Level (workOf s) s.longestKnowns
  sound : ∀ k ∈ s.longestKnowns, Clean s k ∧ Known s k
  covered : ∀ c : Nat, Clean s c → Known s c → Anc (prevOf s) b c ∨
    ∀ k ∈ s.longestKnowns, workOf s c ≤ workOf s k ∧
      (workOf s c = workOf s k → c ∈ s.longestKnowns)
  flag_sound : ∀ c : Nat, Clean s c → (s.blk c).allKnown = true → Known s c
  flag_covered : ∀ c : Nat, Clean s c → Known s c →
    Anc (prevOf s) b c ∨ (s.blk c).allKnown = true

/-- A clean block below `b` is known exactly when the search meets it. -/
theorem mem_knownSearch (ht : TreeOk s) (hb : b < s.numBlocks)
    (hprev : ∀ p : Nat, prevOf s b = some p → (s.blk p).allKnown = true)
    (hsound : ∀ c : Nat, Clean s c → (s.blk c).allKnown = true → Known s c) (hc : Clean s c) :
    c ∈ knownSearch s s.numBlocks b ↔ Anc (prevOf s) b c ∧ Known s c := by
  constructor
  · intro hmem
    obtain ⟨hbc, henter, -⟩ := of_mem_preorder ht.grows (childrenOf s) hmem
    refine ⟨hbc, fun a hac => ?_⟩
    -- an ancestor of `c` is below `b`, or above its parent, which is flagged
    rcases hac.total hbc with hab | hba
    · rcases anc_iff_eq_or_parent.mp hab with rfl | ⟨p, hp, hap⟩
      · exact henter _ (Anc.refl _ _) hbc
      · have hpc := (Anc.of_parent hp).trans hbc
        exact hsound p (ht.anc_clean hpc hc) (hprev p hp) a hap
    · exact henter a hba hac
  · rintro ⟨hbc, hknown⟩
    refine mem_preorder (fun x y hxy hy => mem_children.mpr ⟨hy, hxy⟩) ht.grows (by omega) hc.1
      hbc (fun y _ hyc => hknown y hyc) fun y _ hyc _ => ?_
    exact Option.isNone_iff_eq_none.mpr (ht.anc_clean hyc hc).2

/-- With nothing known below `b`, there was nothing pending. -/
theorem KnownsPending.knownsOk_of_none (h : KnownsPending s b)
    (hnone : ∀ c : Nat, Clean s c → Known s c → ¬ Anc (prevOf s) b c) : KnownsOk s where
  ne_nil := h.level.ne_nil
  mem c := by
    have hcov : ∀ c, Clean s c → Known s c → ∀ k ∈ s.longestKnowns, workOf s c ≤ workOf s k ∧
        (workOf s c = workOf s k → c ∈ s.longestKnowns) := fun c hc hk =>
      (h.covered c hc hk).resolve_left (hnone c hc hk)
    constructor
    · intro hmem
      exact ⟨h.sound c hmem, fun d hd => (hcov d hd.1 hd.2 c hmem).1⟩
    · rintro ⟨hc, hmax⟩
      have hk := headD_mem h.level.ne_nil
      obtain ⟨hle, heq⟩ := hcov c hc.1 hc.2 _ hk
      exact heq (Nat.le_antisymm hle (hmax _ (h.sound _ hk)))
  flag c hc :=
    ⟨h.flag_sound c hc, fun hk => (h.flag_covered c hc hk).resolve_left (hnone c hc hk)⟩

/-- After the search from `b`, `longest_knowns` is right. -/
theorem KnownsPending.markKnown_knownsOk (ht : TreeOk s) (hb : b < s.numBlocks)
    (h : KnownsPending s b)
    (hprev : ∀ p : Nat, prevOf s b = some p → (s.blk p).allKnown = true) :
    KnownsOk (markKnown s (knownSearch s s.numBlocks b)) := by
  have hsame := sameBlocks_markKnown s (knownSearch s s.numBlocks b)
  have hmem : ∀ {c : Nat}, c ∈ (knownSearch s s.numBlocks b).filter
      (fun x => (s.blk x).complaint.isNone) ↔
        Anc (prevOf s) b c ∧ Clean s c ∧ Known s c := by
    intro c
    rw [List.mem_filter, Option.isNone_iff_eq_none]
    constructor
    · rintro ⟨hc, hcomplaint⟩
      obtain ⟨hbc, -, -⟩ := of_mem_preorder ht.grows (childrenOf s) hc
      have hlt : c < s.numBlocks := by
        rcases anc_iff_eq_or_parent.mp hbc with rfl | ⟨p, hp, -⟩
        · exact hb
        · exact ht.lt_of_prev hp
      have hclean : Clean s c := ⟨hlt, hcomplaint⟩
      exact ⟨hbc, hclean, ((mem_knownSearch ht hb hprev h.flag_sound hclean).mp hc).2⟩
    · rintro ⟨hbc, hclean, hknown⟩
      exact ⟨(mem_knownSearch ht hb hprev h.flag_sound hclean).mpr ⟨hbc, hknown⟩, hclean.2⟩
  have hknowns : (markKnown s (knownSearch s s.numBlocks b)).longestKnowns
      = ((knownSearch s s.numBlocks b).filter fun x => (s.blk x).complaint.isNone).foldl
          (keepBest (workOf s)) s.longestKnowns := foldl_keepBestWork h.level _
  refine ⟨hknowns ▸ (level_foldl_keepBest h.level _).ne_nil, fun c => ?_, fun c hc => ?_⟩
  · rw [hknowns, mem_foldl_keepBest h.level, hsame.best_eq, hsame.clean_eq, hsame.known_eq]
    have hall : ∀ d, d ∈ s.longestKnowns ∨ d ∈ (knownSearch s s.numBlocks b).filter
        (fun x => (s.blk x).complaint.isNone) → Clean s d ∧ Known s d := by
      rintro d (hd | hd)
      · exact h.sound d hd
      · exact (hmem.mp hd).2
    constructor
    · rintro ⟨hc, hmax⟩
      refine ⟨hall c hc, fun d hd => ?_⟩
      rcases h.covered d hd.1 hd.2 with hbd | hcov
      · exact hmax d (Or.inr (hmem.mpr ⟨hbd, hd⟩))
      · have hk := headD_mem h.level.ne_nil
        exact (hcov _ hk).1.trans (hmax _ (Or.inl hk))
    · rintro ⟨hc, hmax⟩
      refine ⟨?_, fun d hd => hmax d (hall d hd)⟩
      rcases h.covered c hc.1 hc.2 with hbc | hcov
      · exact Or.inr (hmem.mpr ⟨hbc, hc⟩)
      · have hk := headD_mem h.level.ne_nil
        obtain ⟨hle, heq⟩ := hcov _ hk
        exact Or.inl (heq (Nat.le_antisymm hle (hmax _ (h.sound _ hk))))
  · rw [hsame.clean_eq] at hc
    rw [hsame.known_eq, flag_markKnown]
    constructor
    · rintro (hflag | hsearch)
      · exact h.flag_sound c hc hflag
      · exact ((mem_knownSearch ht hb hprev h.flag_sound hc).mp hsearch).2
    · intro hknown
      rcases h.flag_covered c hc hknown with hbc | hflag
      · exact Or.inr ((mem_knownSearch ht hb hprev h.flag_sound hc).mpr ⟨hbc, hknown⟩)
      · exact Or.inl hflag

/-- A block whose parent is not flagged is not searched. -/
theorem updateKnownRecursive_of_not_flagged (fuel : Nat) {p : Nat} (hp : prevOf s b = some p)
    (hflag : (s.blk p).allKnown = false) : updateKnownRecursive fuel s b = (s, false) := by
  have hgate : ((s.blk b).prev.any fun p => !(s.blk p).allKnown) = true := by
    rw [show (s.blk b).prev = some p from hp]
    simpa using hflag
  cases fuel with
  | zero => rfl
  | succ fuel => rw [updateKnownRecursive, if_pos hgate]

/-- `update_known_recursive` from the block that was pending. -/
theorem KnownsPending.recursive (ht : TreeOk s) (hb : b < s.numBlocks) (h : KnownsPending s b) :
    SameBlocks s (updateKnownRecursive s.numBlocks s b).1 ∧
      KnownsOk (updateKnownRecursive s.numBlocks s b).1 ∧
      (updateKnownRecursive s.numBlocks s b).1.longestChains = s.longestChains ∧
      (updateKnownRecursive s.numBlocks s b).1.preferredChain = s.preferredChain ∧
      ((updateKnownRecursive s.numBlocks s b).2 = false →
        (updateKnownRecursive s.numBlocks s b).1.longestKnowns = s.longestKnowns) := by
  by_cases hprev : ∀ p : Nat, prevOf s b = some p → (s.blk p).allKnown = true
  · obtain ⟨hstate, hchanged⟩ := updateKnownRecursive_eq_markKnown s.numBlocks hprev
    rw [hstate] at hchanged ⊢
    exact ⟨sameBlocks_markKnown s _, h.markKnown_knownsOk ht hb hprev, rfl, rfl, hchanged⟩
  · -- the parent is not flagged, so nothing below `b` is known
    obtain ⟨p, hp⟩ := not_forall.mp hprev
    obtain ⟨hp, hflag⟩ := Classical.not_imp.mp hp
    rw [updateKnownRecursive_of_not_flagged _ hp (by simpa using hflag)]
    refine ⟨SameBlocks.refl s, h.knownsOk_of_none fun c hc hknown hbc => ?_, rfl, rfl,
      fun _ => rfl⟩
    have hpc := (Anc.of_parent hp).trans hbc
    have hpclean := ht.anc_clean hpc hc
    rcases h.flag_covered p hpclean fun a hap => hknown a (hap.trans hpc) with hbp | hpflag
    · have := hbp.le ht.grows
      have := ht.prev_lt b p hp
      omega
    · exact hflag hpflag

-- ---------------------------------------------------------------------------
-- Updating the heads
-- ---------------------------------------------------------------------------

/-- A state that differs in pending transactions and in what was asked of the
neighbours only. -/
def SideOnly (s s' : State D) : Prop := ∃ p ev, s' = { s with pending := p, events := ev }

theorem SideOnly.refl (s : State D) : SideOnly s s := ⟨s.pending, s.events, rfl⟩

theorem SideOnly.trans (h : SideOnly s s') (h' : SideOnly s' s'') : SideOnly s s'' := by
  obtain ⟨p, ev, rfl⟩ := h
  obtain ⟨p', ev', rfl⟩ := h'
  exact ⟨p', ev', rfl⟩

theorem SideOnly.sameHeads (h : SideOnly s s') : SameHeads s s' := by
  obtain ⟨p, ev, rfl⟩ := h
  exact ⟨⟨rfl, fun _ => rfl⟩, fun _ _ => rfl, rfl, rfl, rfl⟩

theorem sideOnly_foldl {α : Type} {step : State D → α → State D}
    (hstep : ∀ s a, SideOnly s (step s a)) (s : State D) (l : List α) :
    SideOnly s (l.foldl step s) := by
  induction l generalizing s with
  | nil => exact SideOnly.refl s
  | cons a l ih => exact (hstep s a).trans (ih (step s a))

theorem sideOnly_blockToPending (s : State D) (b : Nat) :
    SideOnly s (blockToPending s b) := by
  exact sideOnly_foldl (fun s tx => ⟨_, _, rfl⟩) s (blockTxs s b)

theorem sideOnly_stealBackTo (stop : Option Nat) (n : Nat) (s : State D) (b : Nat) :
    SideOnly s (stealBackTo stop n s b) := by
  induction n generalizing s b with
  | zero => exact SideOnly.refl s
  | succ n ih =>
    rw [stealBackTo]
    split_ifs with hstop
    · exact SideOnly.refl s
    · have hpend := sideOnly_blockToPending s b
      cases hp : ((blockToPending s b).blk b).prev with
      | none => simpa only [hp] using hpend
      | some p => simpa only [hp] using hpend.trans (ih _ _)

theorem sideOnly_forgetAboutAll (fuel : Nat) (s : State D) (b : Nat) :
    SideOnly s (forgetAboutAll fuel s b) := by
  induction fuel generalizing s b with
  | zero => exact SideOnly.refl s
  | succ fuel ih =>
    exact SideOnly.trans ⟨_, _, rfl⟩ (sideOnly_foldl ih _ _)

theorem sideOnly_stealPendingTxs (s : State D) (old new : Nat) :
    SideOnly s (stealPendingTxs s old new) := by
  rw [stealPendingTxs]
  split
  · exact sideOnly_stealBackTo _ _ _ _
  · exact SideOnly.refl s

/-- `longest_knowns[0]` is a clean block. -/
theorem KnownsOk.head_clean (h : KnownsOk s) : Clean s (knownHead s) :=
  ((h.mem _).mp (headD_mem h.ne_nil)).1.1

theorem sameBlocks_updatePreferredChain (s : State D) : SameBlocks s (updatePreferredChain s) :=
  ⟨rfl, fun _ => rfl⟩

theorem updatePreferredChain_fronts (s : State D) :
    chainHead (updatePreferredChain s) = chainHead s ∧
      knownHead (updatePreferredChain s) = knownHead s := ⟨rfl, rfl⟩

/-- `update_known()` after the first ones have been put in order. -/
theorem updatePreferredChain_headsOk (ht : TreeOk s) (hc : ChainsOk s) (hk : KnownsOk s)
    (hp : Paired s) : HeadsOk (updatePreferredChain s) := by
  have hsame := sameBlocks_updatePreferredChain s
  exact
    { chains := hc.congr hsame (List.Perm.refl _)
      knowns := hk.congr hsame (fun _ => rfl) (List.Perm.refl _)
      paired := hp
      preferred := updatePreferredChain_ok ht hk.head_clean }

/-- Ordering the pointers and picking the preferred chain settles the heads. -/
theorem settle_headsOk (ht : TreeOk s) (hc : ChainsOk s) (hk : KnownsOk s) :
    SameBlocks s (updatePreferredChain (orderBlockPointers s)) ∧
      HeadsOk (updatePreferredChain (orderBlockPointers s)) := by
  obtain ⟨hsame, hflag, hchains, hknowns, hpaired⟩ := orderBlockPointers_spec ht
  exact ⟨hsame.trans (sameBlocks_updatePreferredChain _),
    updatePreferredChain_headsOk (hsame.treeOk ht) (hc.congr hsame hchains)
      (hk.congr hsame hflag hknowns) hpaired⟩

/-- **`update_known`.** It gets `longest_knowns` right and keeps the rest. -/
theorem updateKnown_headsOk (ht : TreeOk s) (hb : b < s.numBlocks) (hc : ChainsOk s)
    (hpend : KnownsPending s b) (hpaired : Paired s) :
    SameBlocks s (updateKnown s b) ∧ ChainsOk (updateKnown s b) ∧ KnownsOk (updateKnown s b) ∧
      Paired (updateKnown s b) ∧
      (PreferredOk s ∨ (updateKnownRecursive s.numBlocks s b).2 = true →
        PreferredOk (updateKnown s b)) := by
  obtain ⟨hsame, hknowns, hchains, hpref, hunchanged⟩ := hpend.recursive ht hb
  rw [updateKnown]
  generalize updateKnownRecursive s.numBlocks s b = r at hsame hknowns hchains hpref hunchanged ⊢
  obtain ⟨s₁, changed⟩ := r
  simp only at hsame hknowns hchains hpref hunchanged ⊢
  have hc₁ : ChainsOk s₁ := hc.congr hsame (hchains ▸ List.Perm.refl _)
  cases changed with
  | false =>
    simp only [Bool.not_false, if_true]
    refine ⟨hsame, hc₁, hknowns, ?_, fun hp => ?_⟩
    · rw [Paired, knownHead, chainHead, hchains, hunchanged rfl, hsame.prevOf_eq]
      exact hpaired
    · have hp : PreferredOk s := hp.resolve_right (by simp)
      constructor
      · rw [knownHead, hpref, hunchanged rfl, hsame.best_eq, hsame.clean_eq, hsame.prevOf_eq]
        exact hp.best
      · rw [knownHead, hpref, hunchanged rfl, hsame.clean_eq, hsame.prevOf_eq, hsame.workOf_eq]
        exact hp.first
  | true =>
    simp only [Bool.not_true, Bool.false_eq_true, if_false]
    have hpend₁ : SideOnly s₁ s₁.setNeedsRecheck := ⟨_, _, rfl⟩
    have hsame₁ := hpend₁.sameHeads.toSameBlocks
    have hsettle := settle_headsOk (s := s₁.setNeedsRecheck) (hsame₁.treeOk (hsame.treeOk ht))
      (hc₁.congr hsame₁ (List.Perm.refl _))
      (hknowns.congr hsame₁ (fun _ => rfl) (List.Perm.refl _))
    have hdone : ∀ s₂, SideOnly (updatePreferredChain (orderBlockPointers s₁.setNeedsRecheck)) s₂ →
        SameBlocks s s₂ ∧ HeadsOk s₂ := fun s₂ h₂ =>
      ⟨hsame.trans (hsame₁.trans (hsettle.1.trans h₂.sameHeads.toSameBlocks)),
        h₂.sameHeads.headsOk hsettle.2⟩
    split_ifs with hmoved
    · obtain ⟨h₁, h₂⟩ := hdone _ (sideOnly_stealPendingTxs _ _ _)
      exact ⟨h₁, h₂.chains, h₂.knowns, h₂.paired, fun _ => h₂.preferred⟩
    · obtain ⟨h₁, h₂⟩ := hdone _ (SideOnly.refl _)
      exact ⟨h₁, h₂.chains, h₂.knowns, h₂.paired, fun _ => h₂.preferred⟩

/-- A block without children that does not beat the longest known leaves the first
heads in place. -/
theorem updateKnown_fronts (ht : TreeOk s) (hc : s.longestChains ≠ [])
    (hk : s.longestKnowns ≠ []) (hleaf : s.children b = [])
    (hpair : Anc (prevOf s) (knownHead s) (chainHead s))
    (hno : ¬ (workOf s (knownHead s) < workOf s b ∧ (s.blk b).complaint = none ∧
      (∀ p : Nat, prevOf s b = some p → (s.blk p).allKnown = true) ∧
      blockAllKnown s b = true)) :
    chainHead (updateKnown s b) = chainHead s ∧ knownHead (updateKnown s b) = knownHead s := by
  -- what the search leaves behind
  have hrec : SameBlocks s (updateKnownRecursive s.numBlocks s b).1 ∧
      (updateKnownRecursive s.numBlocks s b).1.longestChains = s.longestChains ∧
      (updateKnownRecursive s.numBlocks s b).1.longestKnowns ≠ [] ∧
      knownHead (updateKnownRecursive s.numBlocks s b).1 = knownHead s := by
    by_cases hprev : ∀ p : Nat, prevOf s b = some p → (s.blk p).allKnown = true
    · rw [(updateKnownRecursive_eq_markKnown s.numBlocks hprev).1]
      refine ⟨sameBlocks_markKnown s _, rfl, ?_⟩
      obtain ⟨n, hn⟩ := Nat.exists_eq_succ_of_ne_zero (Nat.ne_of_gt ht.genesis_lt)
      rw [hn, knownSearch, preorder, hleaf]
      by_cases hall : blockAllKnown s b = true
      · rw [if_pos hall]
        simp only [List.flatMap_nil, ite_self]
        cases hcomplaint : (s.blk b).complaint with
        | some m =>
          rw [markKnown_singleton_of_complaint (by rw [hcomplaint]; rfl)]
          exact ⟨hk, rfl⟩
        | none =>
          have hle : ¬ workOf s (s.longestKnowns.headD 0) < workOf s b := fun hlt =>
            hno ⟨hlt, hcomplaint, hprev, hall⟩
          rw [markKnown_singleton hcomplaint, knownHead, knownHead]
          simp only [keepBestWork_eq_keepBest hk]
          obtain ⟨k, ks, hks⟩ := List.exists_cons_of_ne_nil hk
          rw [hks, List.headD_cons] at hle
          rw [hks, keepBest, if_neg hle]
          split_ifs <;> simp
      · rw [if_neg hall, markKnown_nil]
        exact ⟨hk, rfl⟩
    · obtain ⟨p, hp⟩ := not_forall.mp hprev
      obtain ⟨hp, hflag⟩ := Classical.not_imp.mp hp
      have hgate : ((s.blk b).prev.any fun p => !(s.blk p).allKnown) = true := by
        rw [prevOf] at hp
        rw [hp]
        simpa using hflag
      obtain ⟨n, hn⟩ := Nat.exists_eq_succ_of_ne_zero (Nat.ne_of_gt ht.genesis_lt)
      rw [hn, updateKnownRecursive, if_pos hgate]
      exact ⟨SameBlocks.refl s, rfl, hk, rfl⟩
  obtain ⟨hsame, hchains, hknowns, hhead⟩ := hrec
  rw [updateKnown]
  generalize updateKnownRecursive s.numBlocks s b = r at hsame hchains hknowns hhead ⊢
  obtain ⟨s₁, changed⟩ := r
  simp only at hsame hchains hknowns hhead ⊢
  have hchead : chainHead s₁ = chainHead s := by rw [chainHead, hchains, chainHead]
  cases changed with
  | false => exact ⟨hchead, hhead⟩
  | true =>
    have hside : SideOnly s₁ s₁.setNeedsRecheck := ⟨_, _, rfl⟩
    have hsame₁ := hside.sameHeads.toSameBlocks
    obtain ⟨hco, hko⟩ := orderBlockPointers_fronts (s := s₁.setNeedsRecheck)
      (hsame₁.treeOk (hsame.treeOk ht))
      (by rw [show s₁.setNeedsRecheck.longestChains = s.longestChains from hchains]; exact hc)
      hknowns (by
        rw [hsame₁.prevOf_eq, hsame.prevOf_eq, show knownHead s₁.setNeedsRecheck = knownHead s
          from hhead, show chainHead s₁.setNeedsRecheck = chainHead s from hchead]
        exact hpair)
    simp only [Bool.not_true, Bool.false_eq_true, if_false]
    have hfronts : ∀ s₂, SideOnly (updatePreferredChain (orderBlockPointers s₁.setNeedsRecheck)) s₂ →
        chainHead s₂ = chainHead s ∧ knownHead s₂ = knownHead s := fun s₂ h₂ => by
      rw [chainHead, knownHead, h₂.sameHeads.chains, h₂.sameHeads.knowns]
      exact ⟨hco.trans hchead, hko.trans hhead⟩
    split_ifs
    · exact hfronts _ (sideOnly_stealPendingTxs _ _ _)
    · exact hfronts _ (SideOnly.refl _)

end Pettycoin
