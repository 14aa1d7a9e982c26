import Pettycoin.Lib.Forest
import Mathlib.Algebra.Order.Ring.Nat
import Mathlib.Data.Finset.Card

/-!
# Counting what is below a node

`countBelow` counts the descendants of a node, and gives up on a branch that goes on for
too long: it does so exactly when there is one (`countBelow_eq_none_iff`), and otherwise
tells how many descendants there are (`card_of_countBelow`).

* `countBelow_eq_none_iff` — when the count is given up;
* `mem_listing`, `nodup_listing` — the nodes that are counted;
* `card_of_countBelow` — and how many they are.
-/

namespace Forest

variable {parent : ℕ → Option ℕ} {children : ℕ → List ℕ} {a b c x y : ℕ}

/-- How many are below `b`: `none` when some are as far down as the limit. -/
def countBelow (children : ℕ → List ℕ) : ℕ → ℕ → Option ℕ
  | 0, _ => none
  | limit + 1, b =>
    (children b).foldlM (fun num c => (countBelow children limit c).map (num + 1 + ·)) 0

/-- Each child counts once, and as many times as it has descendants. -/
theorem foldlM_countBelow {limit : ℕ} {l : List ℕ} {num k : ℕ}
    (h : l.foldlM (fun num c => (countBelow children limit c).map (num + 1 + ·)) num = some k) :
    (∀ c ∈ l, ∃ m, countBelow children limit c = some m) ∧
      k = num + (l.map fun c => 1 + (countBelow children limit c).getD 0).sum := by
  induction l generalizing num with
  | nil =>
    obtain rfl := Option.some.inj h
    exact ⟨fun c hc => absurd hc List.not_mem_nil, rfl⟩
  | cons c l ih =>
    rw [List.foldlM_cons] at h
    obtain ⟨next, hnext, hrest⟩ := Option.bind_eq_some_iff.mp h
    obtain ⟨m, hm, rfl⟩ := Option.map_eq_some_iff.mp hnext
    obtain ⟨hall, rfl⟩ := ih hrest
    refine ⟨List.forall_mem_cons.mpr ⟨⟨m, hm⟩, hall⟩, ?_⟩
    rw [List.map_cons, List.sum_cons, hm, Option.getD_some]
    omega

/-- One branch that is given up is enough. -/
theorem foldlM_eq_none {α β : Type*} {f : β → α → Option β} {l : List α} {acc : β}
    (hc : ∃ c ∈ l, ∀ acc, f acc c = none) : l.foldlM f acc = none := by
  induction l generalizing acc with
  | nil =>
    obtain ⟨c, hc, -⟩ := hc
    exact absurd hc List.not_mem_nil
  | cons c l ih =>
    rw [List.foldlM_cons]
    obtain ⟨d, hd, hnone⟩ := hc
    rcases List.mem_cons.mp hd with rfl | hd
    · rw [hnone acc]
      rfl
    · cases hacc : f acc c with
      | none => rfl
      | some next => exact ih ⟨d, hd, hnone⟩

/-- A count that is given up was given up for one of the children. -/
theorem foldlM_countBelow_ne_none {limit num : ℕ} {l : List ℕ}
    (h : ∀ c ∈ l, countBelow children limit c ≠ none) :
    l.foldlM (fun num c => (countBelow children limit c).map (num + 1 + ·)) num ≠ none := by
  induction l generalizing num with
  | nil => exact Option.some_ne_none num
  | cons c l ih =>
    obtain ⟨hc, hl⟩ := List.forall_mem_cons.mp h
    obtain ⟨m, hm⟩ := Option.ne_none_iff_exists'.mp hc
    rw [List.foldlM_cons, hm]
    exact ih hl

section Complete

variable (hg : Grows parent) (hc : ChildrenOf parent children)
  (hall : ∀ b c, parent c = some b → c ∈ children b)
  {level : ℕ → ℕ} (hlevel : ∀ b c, parent c = some b → level c = level b + 1)

include hlevel in
theorem Anc.level_le (h : Anc parent a b) : level a ≤ level b := by
  induction h with
  | refl => exact Nat.le_refl _
  | tail _ hstep ih =>
    have := hlevel _ _ hstep
    omega

include hc hall hlevel in
/-- The count is given up exactly when a descendant is as far down as the limit. -/
theorem countBelow_eq_none_iff {limit : ℕ} :
    countBelow children limit b = none ↔ ∃ x, Anc parent b x ∧ level b + limit ≤ level x := by
  induction limit generalizing b with
  | zero => exact iff_of_true rfl ⟨b, Anc.refl _ _, Nat.le_refl _⟩
  | succ limit ih =>
    have hfold : countBelow children (limit + 1) b = none ↔
        ∃ c ∈ children b, countBelow children limit c = none := by
      constructor
      · intro h
        by_contra hno
        exact foldlM_countBelow_ne_none (fun c hmem hnone => hno ⟨c, hmem, hnone⟩) h
      · rintro ⟨c, hmem, hnone⟩
        exact foldlM_eq_none ⟨c, hmem, fun num => by rw [hnone]; rfl⟩
    rw [hfold]
    constructor
    · rintro ⟨c, hmem, hnone⟩
      have hpar := hc.parent_of_mem b c hmem
      obtain ⟨x, hcx, hx⟩ := ih.mp hnone
      have := hlevel b c hpar
      exact ⟨x, (Anc.of_parent hpar).trans hcx, by omega⟩
    · rintro ⟨x, hbx, hx⟩
      rcases anc_iff_eq_or_child.mp hbx with rfl | ⟨c, hpar, hcx⟩
      · omega
      · have := hlevel b c hpar
        exact ⟨c, hall b c hpar, ih.mpr ⟨x, hcx, by omega⟩⟩

/-- A depth-first search that leaves nothing out. -/
abbrev listing (children : ℕ → List ℕ) : ℕ → ℕ → List ℕ :=
  preorder children (fun _ => true) fun _ => true

theorem listing_succ (children : ℕ → List ℕ) (n b : ℕ) :
    listing children (n + 1) b = b :: (children b).flatMap (listing children n) := rfl

include hall hlevel in
theorem mem_listing {n : ℕ} (hbx : Anc parent b x) (hx : level x < level b + n) :
    x ∈ listing children n b := by
  induction n generalizing b with
  | zero =>
    have := hbx.level_le hlevel
    omega
  | succ n ih =>
    rw [listing_succ, List.mem_cons]
    rcases anc_iff_eq_or_child.mp hbx with rfl | ⟨c, hpar, hcx⟩
    · exact Or.inl rfl
    · have := hlevel b c hpar
      exact Or.inr (List.mem_flatMap.mpr ⟨c, hall b c hpar, ih hcx (by omega)⟩)

include hg hc in
/-- Nothing is listed twice. -/
theorem nodup_listing (n b : ℕ) : (listing children n b).Nodup := by
  induction n generalizing b with
  | zero => exact List.nodup_nil
  | succ n ih =>
    rw [listing_succ, List.nodup_cons]
    constructor
    · intro hmem
      obtain ⟨c, hchild, hb⟩ := List.mem_flatMap.mp hmem
      have hlt := hg _ _ (hc.parent_of_mem b c hchild)
      have hle := (of_mem_preorder hg hc hb).1.le hg
      omega
    · rw [List.nodup_flatMap]
      refine ⟨fun c _ => ih c, (hc.sorted b).imp_of_mem fun hx hy hlt => ?_⟩
      intro z hzx hzy
      have := child_unique hg (hc.parent_of_mem b _ hx) (hc.parent_of_mem b _ hy)
        (of_mem_preorder hg hc hzx).1 (of_mem_preorder hg hc hzy).1
      omega

/-- A count counts what is listed, but for the node itself. -/
theorem length_listing {limit k : ℕ} (h : countBelow children limit b = some k) :
    (listing children limit b).length = k + 1 := by
  induction limit generalizing b k with
  | zero => exact absurd h (Option.some_ne_none k).symm
  | succ limit ih =>
    obtain ⟨hsome, rfl⟩ := foldlM_countBelow h
    rw [listing_succ, List.length_cons, List.length_flatMap, Nat.zero_add]
    congr 2
    refine List.map_congr_left fun c hmem => ?_
    obtain ⟨m, hm⟩ := hsome c hmem
    rw [ih hm, hm, Option.getD_some, Nat.add_comm]

include hg hc hall hlevel in
/-- A count that is not given up tells how many descendants there are. -/
theorem card_of_countBelow {limit k : ℕ} (h : countBelow children limit b = some k)
    {below : Finset ℕ} (hbelow : ∀ x, x ∈ below ↔ x ≠ b ∧ Anc parent b x) : below.card = k := by
  have hset : (listing children limit b).toFinset = insert b below := by
    ext x
    rw [List.mem_toFinset, Finset.mem_insert, hbelow]
    constructor
    · intro hx
      by_cases hxb : x = b
      · exact Or.inl hxb
      · exact Or.inr ⟨hxb, (of_mem_preorder hg hc hx).1⟩
    · intro hx
      have hbx : Anc parent b x := by
        rcases hx with rfl | ⟨-, hbx⟩
        · exact Anc.refl _ _
        · exact hbx
      refine mem_listing hall hlevel hbx ?_
      by_contra hfar
      have hnone := (countBelow_eq_none_iff hc hall hlevel).mpr ⟨x, hbx, not_lt.mp hfar⟩
      rw [h] at hnone
      exact absurd hnone (Option.some_ne_none k)
  have hcard := congrArg Finset.card hset
  rw [List.toFinset_card_of_nodup (nodup_listing hg hc limit b), length_listing h,
    Finset.card_insert_of_notMem fun hb => ((hbelow b).mp hb).1 rfl] at hcard
  omega

end Complete

end Forest
