import Pettycoin.Chain
import Pettycoin.Lib.Forest
import Pettycoin.Lib.KeepBest

/-!
# Pettycoin — the block tree

`prev` makes the blocks a tree that grows by numbers (`TreeOk`), `block_preceeds`
is its ancestor relation (`blockPreceeds_iff`), and the searches of `chain.c`
are scans of a depth-first listing of it (`findLongestDescendents_eq_foldl`).

* `TreeOk.anc_depth`, `TreeOk.anc_work` — depth and work along a branch;
* `blockPreceeds_iff` — what `block_preceeds` tells;
* `findLongestDescendents_eq_foldl` — what a search keeps.
-/

namespace Pettycoin

open Forest KeepBest

variable {D : Type}

/-- `block->prev`. -/
def prevOf (s : State D) (b : Nat) : Option BlockId := (s.blk b).prev

/-- The total work of a block. -/
def workOf (s : State D) (b : Nat) : Nat := (s.blk b).totalWork

/-- A block without a complaint. -/
def Clean (s : State D) (b : Nat) : Prop := b < s.numBlocks ∧ (s.blk b).complaint = none

instance (s : State D) (b : Nat) : Decidable (Clean s b) :=
  decidable_of_iff (b < s.numBlocks ∧ (s.blk b).complaint.isNone = true)
    (and_congr_right fun _ => Option.isNone_iff_eq_none)

/-- The blocks form a tree rooted in the genesis block: each block is one deeper
than its parent, has more work, and inherits a complaint. -/
structure TreeOk (s : State D) : Prop where
  genesis_lt : 0 < s.numBlocks
  genesis_prev : prevOf s 0 = none
  beyond : ∀ b : Nat, s.numBlocks ≤ b → prevOf s b = none
  has_prev : ∀ b : Nat, 0 < b → b < s.numBlocks → ∃ p, prevOf s b = some p
  prev_lt : ∀ b p : Nat, prevOf s b = some p → p < b
  depth_genesis : (s.blk 0).depth = 0
  depth_prev : ∀ b p : Nat, prevOf s b = some p → (s.blk b).depth = (s.blk p).depth + 1
  work_prev : ∀ b p : Nat, prevOf s b = some p → workOf s p < workOf s b
  complaint_genesis : (s.blk 0).complaint = none
  complaint_prev : ∀ b p : Nat, prevOf s b = some p →
    (s.blk p).complaint.isSome → (s.blk b).complaint.isSome

variable {s : State D} {a b c : Nat}

-- ---------------------------------------------------------------------------
-- Ancestors
-- ---------------------------------------------------------------------------

theorem TreeOk.grows (h : TreeOk s) : Grows (prevOf s) := fun x y hxy => h.prev_lt y x hxy

theorem TreeOk.lt_of_prev (h : TreeOk s) (hp : prevOf s b = some a) : b < s.numBlocks := by
  by_contra hb
  rw [h.beyond b (by omega)] at hp
  exact absurd hp (by simp)

/-- An ancestor of a block is a block. -/
theorem TreeOk.anc_lt (h : TreeOk s) (hab : Anc (prevOf s) a b) (hb : b < s.numBlocks) :
    a < s.numBlocks :=
  Nat.lt_of_le_of_lt (hab.le h.grows) hb

/-- Every block descends from the genesis block. -/
theorem TreeOk.genesis_anc (h : TreeOk s) (hb : b < s.numBlocks) : Anc (prevOf s) 0 b := by
  induction b using Nat.strong_induction_on with
  | _ b ih =>
    rcases Nat.eq_zero_or_pos b with rfl | hpos
    · exact Anc.refl _ _
    · obtain ⟨p, hp⟩ := h.has_prev b hpos hb
      have hlt := h.prev_lt b p hp
      exact (ih p hlt (by omega)).trans (Anc.of_parent hp)

/-- An ancestor is no deeper. -/
theorem TreeOk.anc_depth (h : TreeOk s) (hab : Anc (prevOf s) a b) :
    (s.blk a).depth ≤ (s.blk b).depth := by
  induction hab with
  | refl => exact Nat.le_refl _
  | tail _ hstep ih =>
    have := h.depth_prev _ _ hstep
    omega

/-- An ancestor of the same depth is the block itself. -/
theorem TreeOk.anc_eq_of_depth (h : TreeOk s) (hab : Anc (prevOf s) a b)
    (hd : (s.blk b).depth ≤ (s.blk a).depth) : a = b := by
  rcases anc_iff_eq_or_parent.mp hab with heq | ⟨p, hp, hap⟩
  · exact heq
  · have := h.anc_depth hap
    have := h.depth_prev b p hp
    omega

/-- An ancestor has less work. -/
theorem TreeOk.anc_work (h : TreeOk s) (hab : Anc (prevOf s) a b) :
    a = b ∨ workOf s a < workOf s b := by
  induction hab with
  | refl => exact Or.inl rfl
  | tail _ hstep ih =>
    have := h.work_prev _ _ hstep
    rcases ih with rfl | hlt
    · exact Or.inr this
    · exact Or.inr (hlt.trans this)

/-- The ancestors of a clean block are clean. -/
theorem TreeOk.anc_clean (h : TreeOk s) (hab : Anc (prevOf s) a b) (hb : Clean s b) :
    Clean s a := by
  refine ⟨h.anc_lt hab hb.1, ?_⟩
  have key : (s.blk a).complaint.isSome → (s.blk b).complaint.isSome := by
    have hb' := hb
    clear hb hb'
    induction hab with
    | refl => exact id
    | tail _ hstep ih => exact fun ha => h.complaint_prev _ _ hstep (ih ha)
  rw [hb.2] at key
  cases hc : (s.blk a).complaint with
  | none => rfl
  | some m =>
    rw [hc] at key
    exact absurd (key rfl) (by simp)

theorem TreeOk.genesis_clean (h : TreeOk s) : Clean s 0 := ⟨h.genesis_lt, h.complaint_genesis⟩

/-- `block_preceeds` is the ancestor relation. -/
theorem blockPreceeds_iff (h : TreeOk s) : blockPreceeds s a b = true ↔ Anc (prevOf s) a b := by
  have from_iff : ∀ n b, (s.blk b).depth = n →
      (blockPreceedsFrom s a n b = true ↔ Anc (prevOf s) a b) := by
    intro n
    induction n with
    | zero =>
      intro b hb
      rw [blockPreceedsFrom, beq_iff_eq]
      exact ⟨fun heq => heq ▸ Anc.refl _ _, fun hab => h.anc_eq_of_depth hab (by omega)⟩
    | succ n ih =>
      intro b hb
      rw [blockPreceedsFrom, Bool.or_eq_true, beq_iff_eq, Bool.and_eq_true, decide_eq_true_eq,
        anc_iff_eq_or_parent]
      refine or_congr_right ?_
      cases hprev : (s.blk b).prev with
      | none =>
        simp only [Bool.false_eq_true, and_false, false_iff]
        rintro ⟨p, hp, -⟩
        rw [prevOf, hprev] at hp
        exact absurd hp (by simp)
      | some p =>
        have hdepth := h.depth_prev b p hprev
        simp only [ih p (by omega)]
        constructor
        · rintro ⟨-, hap⟩
          exact ⟨p, hprev, hap⟩
        · rintro ⟨q, hq, haq⟩
          rw [prevOf, hprev] at hq
          injection hq with hq
          subst hq
          have := h.anc_depth haq
          exact ⟨by omega, haq⟩
  exact from_iff _ b rfl

theorem mem_children : c ∈ s.children b ↔ c < s.numBlocks ∧ prevOf s c = some b := by
  rw [State.children, List.mem_filter, List.mem_range, beq_iff_eq, prevOf]

theorem childrenOf (s : State D) : ChildrenOf (prevOf s) s.children where
  parent_of_mem _ _ hc := (mem_children.mp hc).2
  sorted _ := List.Pairwise.filter _ List.pairwise_lt_range

-- ---------------------------------------------------------------------------
-- Searches
-- ---------------------------------------------------------------------------

theorem keepBestWork_eq_keepBest {bests : List BlockId} (hne : bests ≠ []) :
    keepBestWork s bests b = keepBest (workOf s) bests b := by
  obtain ⟨x, bests, rfl⟩ := List.exists_cons_of_ne_nil hne
  rw [keepBestWork, keepBest, List.headD_cons, cmpWork, workOf, workOf]
  rcases Nat.lt_trichotomy (s.blk b).totalWork (s.blk x).totalWork with h | h | h
  · rw [Nat.compare_eq_lt.mpr h, if_neg (Nat.not_lt.mpr h.le), if_neg (Nat.ne_of_lt h)]
  · rw [Nat.compare_eq_eq.mpr h, if_neg (Nat.not_lt.mpr h.le), if_pos h]
  · rw [Nat.compare_eq_gt.mpr h, if_pos h]

theorem foldl_keepBestWork {bests : List BlockId} (h : Level (workOf s) bests)
    (l : List BlockId) :
    l.foldl (keepBestWork s) bests = l.foldl (keepBest (workOf s)) bests := by
  induction l generalizing bests with
  | nil => rfl
  | cons x l ih =>
    rw [List.foldl_cons, List.foldl_cons, keepBestWork_eq_keepBest h.ne_nil,
      ih (level_keepBest h x)]

/-- The clean blocks a search from `b` meets. -/
def cleanSearch (s : State D) (fuel : Nat) (b : Nat) : List BlockId :=
  preorder s.children (fun x => (s.blk x).complaint.isNone) (fun _ => true) fuel b

/-- `find_longest_descendents` scans the clean descendants. -/
theorem findLongestDescendents_eq_foldl (fuel : Nat) (b : Nat) (bests : List BlockId) :
    findLongestDescendents s fuel b bests
      = (cleanSearch s fuel b).foldl (keepBestWork s) bests := by
  induction fuel generalizing b bests with
  | zero => rfl
  | succ fuel ih =>
    rw [findLongestDescendents, cleanSearch, preorder]
    cases hc : (s.blk b).complaint with
    | some m => simp
    | none =>
      simp only [Option.isSome_none, Bool.false_eq_true, if_false, Option.isNone_none, if_true,
        List.foldl_cons]
      generalize keepBestWork s bests b = bests'
      generalize s.children b = l
      induction l generalizing bests' with
      | nil => rfl
      | cons x l ihl =>
        rw [List.foldl_cons, List.flatMap_cons, List.foldl_append, ih x bests', ihl]
        rfl

/-- A search meets the clean blocks below its start. -/
theorem mem_cleanSearch (h : TreeOk s) (hb : b < s.numBlocks) :
    c ∈ cleanSearch s s.numBlocks b ↔ Clean s c ∧ Anc (prevOf s) b c := by
  constructor
  · intro hc
    obtain ⟨hbc, henter, -⟩ := of_mem_preorder h.grows (childrenOf s) hc
    have hclean : (s.blk c).complaint = none :=
      Option.isNone_iff_eq_none.mp (henter c hbc (Anc.refl _ _))
    refine ⟨⟨?_, hclean⟩, hbc⟩
    rcases anc_iff_eq_or_parent.mp hbc with rfl | ⟨p, hp, -⟩
    · exact hb
    · exact h.lt_of_prev hp
  · rintro ⟨hc, hbc⟩
    refine mem_preorder (fun x y hxy hy => mem_children.mpr ⟨hy, hxy⟩) h.grows (by omega) hc.1 hbc
      (fun y _ hyc => ?_) (fun _ _ _ _ => rfl)
    exact Option.isNone_iff_eq_none.mpr (h.anc_clean hyc hc).2

end Pettycoin
