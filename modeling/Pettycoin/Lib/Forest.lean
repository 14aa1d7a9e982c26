import Mathlib.Logic.Relation
import Mathlib.Data.Nat.Basic
import Mathlib.Data.List.Pairwise
import Mathlib.Data.List.Basic

/-!
# Forests given by a parent function

Nodes are numbers and a parent is smaller than its children (`Grows`), as when
nodes are numbered in the order they were attached. `Anc` is the reflexive
ancestor relation; `Fork` compares two nodes by the order of the siblings their
branches leave through.

`preorder` lists the nodes a depth-first search meets, where `enter` says which
nodes it accepts and `descend` below which it goes on:

* `of_mem_preorder`, `mem_preorder` — which nodes are listed;
* `pairwise_preorder` — a node listed before another is its ancestor or on an
  earlier branch.
-/

namespace Forest

variable {parent : ℕ → Option ℕ} {a b c x y : ℕ}

/-- `a` is `b` or one of its ancestors. -/
def Anc (parent : ℕ → Option ℕ) : ℕ → ℕ → Prop :=
  Relation.ReflTransGen fun x y => parent y = some x

/-- A parent comes before its children. -/
def Grows (parent : ℕ → Option ℕ) : Prop :=
  ∀ x y, parent y = some x → x < y

/-- The branch of `a` leaves a common ancestor through an earlier sibling than
the branch of `b`. -/
def Fork (parent : ℕ → Option ℕ) (a b : ℕ) : Prop :=
  ∃ f x y, parent x = some f ∧ parent y = some f ∧ x < y ∧ Anc parent x a ∧ Anc parent y b

-- ---------------------------------------------------------------------------
-- Ancestors
-- ---------------------------------------------------------------------------

theorem Anc.refl (parent : ℕ → Option ℕ) (a : ℕ) : Anc parent a a := Relation.ReflTransGen.refl

theorem Anc.trans (hab : Anc parent a b) (hbc : Anc parent b c) : Anc parent a c :=
  Relation.ReflTransGen.trans hab hbc

theorem Anc.of_parent (h : parent b = some a) : Anc parent a b :=
  Relation.ReflTransGen.single h

/-- The last step of a chain. -/
theorem anc_iff_eq_or_parent :
    Anc parent a b ↔ a = b ∨ ∃ p, parent b = some p ∧ Anc parent a p := by
  constructor
  · intro h
    cases h with
    | refl => exact Or.inl rfl
    | tail hap hpb => exact Or.inr ⟨_, hpb, hap⟩
  · rintro (rfl | ⟨p, hp, hap⟩)
    · exact Anc.refl _ _
    · exact hap.trans (Anc.of_parent hp)

/-- The first step of a chain. -/
theorem anc_iff_eq_or_child :
    Anc parent a b ↔ a = b ∨ ∃ c, parent c = some a ∧ Anc parent c b := by
  constructor
  · intro h
    rcases Relation.ReflTransGen.cases_head h with heq | ⟨c, hac, hcb⟩
    · exact Or.inl heq
    · exact Or.inr ⟨c, hac, hcb⟩
  · rintro (rfl | ⟨c, hc, hcb⟩)
    · exact Anc.refl _ _
    · exact (Anc.of_parent hc).trans hcb

theorem Anc.le (hg : Grows parent) (h : Anc parent a b) : a ≤ b := by
  induction h with
  | refl => exact Nat.le_refl a
  | tail _ hstep ih =>
    have := hg _ _ hstep
    omega

theorem Anc.antisymm (hg : Grows parent) (hab : Anc parent a b) (hba : Anc parent b a) :
    a = b :=
  le_antisymm (hab.le hg) (hba.le hg)

/-- Two ancestors of one node are on one chain. -/
theorem Anc.total (ha : Anc parent a c) (hb : Anc parent b c) :
    Anc parent a b ∨ Anc parent b a := by
  induction ha with
  | refl => exact Or.inr hb
  | tail hap hstep ih =>
    rcases anc_iff_eq_or_parent.mp hb with rfl | ⟨p, hp, hbp⟩
    · exact Or.inl (Relation.ReflTransGen.tail hap hstep)
    · rw [hstep] at hp
      injection hp with hp
      subst hp
      exact ih hbp

/-- A branch leaves a node through one child only. -/
theorem child_unique (hg : Grows parent) {f : ℕ} (hx : parent x = some f)
    (hy : parent y = some f) (hxa : Anc parent x a) (hya : Anc parent y a) : x = y := by
  have below : ∀ {x y : ℕ}, parent x = some f → parent y = some f → Anc parent x y → x = y := by
    intro x y hx hy hxy
    rcases anc_iff_eq_or_parent.mp hxy with heq | ⟨p, hp, hxp⟩
    · exact heq
    · rw [hy] at hp
      injection hp with hp
      subst hp
      have := hxp.le hg
      have := hg _ _ hx
      omega
  rcases hxa.total hya with h | h
  · exact below hx hy h
  · exact (below hy hx h).symm

theorem not_anc_of_fork (hg : Grows parent) (h : Fork parent a b) : ¬ Anc parent a b := by
  obtain ⟨f, x, y, hx, hy, hlt, hxa, hyb⟩ := h
  intro hab
  have := child_unique hg hx hy (hxa.trans hab) hyb
  omega

theorem Fork.asymm (hg : Grows parent) (h : Fork parent a b) : ¬ Fork parent b a := by
  obtain ⟨f, x, y, hx, hy, hlt, hxa, hyb⟩ := h
  rintro ⟨f', x', y', hx', hy', hlt', hx'b, hy'a⟩
  -- the fork that is higher up would let both branches through one child
  have higher : ∀ {f f' x y : ℕ}, Anc parent f f' → f ≠ f' → parent x = some f →
      parent y = some f → Anc parent f' a → Anc parent f' b → Anc parent x a →
      Anc parent y b → x = y := by
    intro f f' x y hff' hne hx hy hfa hfb hxa hyb
    rcases anc_iff_eq_or_child.mp hff' with heq | ⟨z, hz, hzf'⟩
    · exact absurd heq hne
    · have hxz := child_unique hg hx hz hxa (hzf'.trans hfa)
      have hyz := child_unique hg hy hz hyb (hzf'.trans hfb)
      exact hxz.trans hyz.symm
  have hfa := (Anc.of_parent hx).trans hxa
  have hfb := (Anc.of_parent hy).trans hyb
  have hf'a := (Anc.of_parent hy').trans hy'a
  have hf'b := (Anc.of_parent hx').trans hx'b
  by_cases hff' : f = f'
  · subst hff'
    have h1 := child_unique hg hx hy' hxa hy'a
    have h2 := child_unique hg hy hx' hyb hx'b
    omega
  · rcases hfa.total hf'a with hle | hle
    · have := higher hle hff' hx hy hf'a hf'b hxa hyb
      omega
    · have := higher hle (Ne.symm hff') hy' hx' hfa hfb hy'a hx'b
      omega

/-- Two nodes of one tree on different branches are in one order or the other. -/
theorem fork_total {r : ℕ} (ha : Anc parent r a) (hb : Anc parent r b)
    (hab : ¬ Anc parent a b) (hba : ¬ Anc parent b a) :
    Fork parent a b ∨ Fork parent b a := by
  induction ha using Relation.ReflTransGen.head_induction_on with
  | refl => exact absurd hb hab
  | @head r c hc hca ih =>
    by_cases hcb : Anc parent c b
    · exact ih hcb
    · rcases anc_iff_eq_or_child.mp hb with rfl | ⟨d, hd, hdb⟩
      · exact absurd ((Anc.of_parent hc).trans hca) hba
      · have hne : c ≠ d := by
          rintro rfl
          exact hcb hdb
        rcases Nat.lt_or_gt_of_ne hne with hlt | hlt
        · exact Or.inl ⟨r, c, d, hc, hd, hlt, hca, hdb⟩
        · exact Or.inr ⟨r, d, c, hd, hc, hlt, hdb, hca⟩

-- ---------------------------------------------------------------------------
-- Depth-first search
-- ---------------------------------------------------------------------------

variable (children : ℕ → List ℕ) (enter descend : ℕ → Bool)

/-- The nodes a depth-first search from `b` meets, to a given depth. -/
def preorder : ℕ → ℕ → List ℕ
  | 0, _ => []
  | fuel + 1, b =>
    if enter b then
      b :: (if descend b then (children b).flatMap (preorder fuel) else [])
    else []

variable {children enter descend}

/-- The children of a node are the later nodes it is the parent of, in order. -/
structure ChildrenOf (parent : ℕ → Option ℕ) (children : ℕ → List ℕ) : Prop where
  parent_of_mem : ∀ b c, c ∈ children b → parent c = some b
  sorted : ∀ b, (children b).Pairwise (· < ·)

/-- Only descendants are listed, along branches that are entered and descended. -/
theorem of_mem_preorder (hg : Grows parent) (hc : ChildrenOf parent children) {fuel : ℕ}
    (h : x ∈ preorder children enter descend fuel b) :
    Anc parent b x ∧ (∀ y, Anc parent b y → Anc parent y x → enter y = true) ∧
      (∀ y, Anc parent b y → Anc parent y x → y ≠ x → descend y = true) := by
  induction fuel generalizing b with
  | zero => simp [preorder] at h
  | succ fuel ih =>
    rw [preorder] at h
    by_cases hb : enter b = true
    · rw [if_pos hb, List.mem_cons] at h
      rcases h with rfl | h
      · refine ⟨Anc.refl _ _, fun y hby hyx => ?_, fun y hby hyx hne => ?_⟩
        · rw [hyx.antisymm hg hby]
          exact hb
        · exact absurd (hyx.antisymm hg hby) hne
      · by_cases hd : descend b = true
        · rw [if_pos hd, List.mem_flatMap] at h
          obtain ⟨c, hcb, hx⟩ := h
          have hpar := hc.parent_of_mem b c hcb
          obtain ⟨hcx, henter, hdescend⟩ := ih hx
          -- what lies between `b` and `x` is `b` itself or below `c`
          have below : ∀ y, Anc parent b y → Anc parent y x → y = b ∨ Anc parent c y := by
            intro y hby hyx
            rcases anc_iff_eq_or_child.mp hby with heq | ⟨z, hz, hzy⟩
            · exact Or.inl heq.symm
            · have hzc := child_unique hg hz hpar (hzy.trans hyx) hcx
              exact Or.inr (hzc ▸ hzy)
          refine ⟨(Anc.of_parent hpar).trans hcx, fun y hby hyx => ?_, fun y hby hyx hne => ?_⟩
          · rcases below y hby hyx with rfl | hcy
            · exact hb
            · exact henter y hcy hyx
          · rcases below y hby hyx with rfl | hcy
            · exact hd
            · exact hdescend y hcy hyx hne
        · rw [if_neg hd] at h
          exact absurd h List.not_mem_nil
    · rw [if_neg hb] at h
      exact absurd h List.not_mem_nil

/-- With enough fuel every such descendant is listed. -/
theorem mem_preorder {bound : ℕ}
    (hmem : ∀ b c, parent c = some b → c < bound → c ∈ children b) (hg : Grows parent)
    {fuel : ℕ} (hfuel : bound ≤ b + fuel) (hx : x < bound) (hbx : Anc parent b x)
    (henter : ∀ y, Anc parent b y → Anc parent y x → enter y = true)
    (hdescend : ∀ y, Anc parent b y → Anc parent y x → y ≠ x → descend y = true) :
    x ∈ preorder children enter descend fuel b := by
  induction fuel generalizing b with
  | zero =>
    have := hbx.le hg
    omega
  | succ fuel ih =>
    rw [preorder, if_pos (henter b (Anc.refl _ _) hbx), List.mem_cons]
    rcases anc_iff_eq_or_child.mp hbx with heq | ⟨c, hcb, hcx⟩
    · exact Or.inl heq.symm
    · have hlt := hg _ _ hcb
      have hcle := hcx.le hg
      refine Or.inr ?_
      rw [if_pos (hdescend b (Anc.refl _ _) hbx (by omega)), List.mem_flatMap]
      have hbc := Anc.of_parent hcb
      exact ⟨c, hmem b c hcb (by omega), ih (by omega) hcx
        (fun y hcy => henter y (hbc.trans hcy)) fun y hcy => hdescend y (hbc.trans hcy)⟩

/-- A node listed before another is its ancestor or on an earlier branch. -/
theorem pairwise_preorder (hg : Grows parent) (hc : ChildrenOf parent children)
    (enter descend : ℕ → Bool) (fuel b : ℕ) :
    (preorder children enter descend fuel b).Pairwise
      fun u v => Anc parent u v ∨ Fork parent u v := by
  induction fuel generalizing b with
  | zero => exact List.Pairwise.nil
  | succ fuel ih =>
    rw [preorder]
    by_cases hb : enter b = true
    · rw [if_pos hb]
      by_cases hd : descend b = true
      · rw [if_pos hd, List.pairwise_cons]
        constructor
        · intro v hv
          obtain ⟨c, hcb, hv⟩ := List.mem_flatMap.mp hv
          exact Or.inl ((Anc.of_parent (hc.parent_of_mem b c hcb)).trans
            (of_mem_preorder hg hc hv).1)
        · rw [List.pairwise_flatMap]
          refine ⟨fun c _ => ih c, ?_⟩
          refine (hc.sorted b).imp_of_mem fun hx hy hlt u hu v hv => Or.inr ?_
          exact ⟨b, _, _, hc.parent_of_mem b _ hx, hc.parent_of_mem b _ hy, hlt,
            (of_mem_preorder hg hc hu).1, (of_mem_preorder hg hc hv).1⟩
      · rw [if_neg hd]
        exact List.pairwise_singleton _ _
    · rw [if_neg hb]
      exact List.Pairwise.nil

end Forest
