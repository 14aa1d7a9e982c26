import Mathlib.Order.Defs.Unbundled
import Mathlib.Logic.Function.Basic

/-!
# Sparse sequences in order

A sequence with holes is in order if of any two things in it the earlier one is
less. To insert something it is enough to look at the nearest neighbour on each
side (`ascending_update_iff`), as long as the relation is transitive.

* `nearest_eq_some` — the nearest neighbour on one side;
* `ascending_update_iff` — insertion.
-/

namespace Sparse

variable {α : Type} {lt : α → α → Prop} {f : Nat → Option α} {i k n : Nat} {x : α}

/-- Of any two things in the sequence the earlier one is less. -/
def Ascending (lt : α → α → Prop) (f : Nat → Option α) : Prop :=
  ∀ i j x y, i < j → f i = some x → f j = some y → lt x y

/-- The first of these places that is not a hole, and what is there. -/
def nearest (f : Nat → Option α) (places : List Nat) : Option (Nat × α) :=
  places.findSome? fun i => (f i).map fun x => (i, x)

theorem nearest_eq_none {places : List Nat} :
    nearest f places = none ↔ ∀ i ∈ places, f i = none := by
  unfold nearest
  rw [List.findSome?_eq_none_iff]
  exact forall₂_congr fun i _ => Option.map_eq_none_iff

/-- Whatever else is at these places comes after what is found. -/
theorem nearest_eq_some {R : Nat → Nat → Prop} {places : List Nat} (hsorted : places.Pairwise R)
    (h : nearest f places = some (i, x)) :
    i ∈ places ∧ f i = some x ∧ ∀ j ∈ places, ∀ y, f j = some y → j = i ∨ R i j := by
  obtain ⟨before, a, after, rfl, ha, hholes⟩ := List.findSome?_eq_some_iff.mp h
  obtain ⟨x', hx, heq⟩ := Option.map_eq_some_iff.mp ha
  obtain ⟨rfl, rfl⟩ := Prod.mk.inj heq
  refine ⟨by simp, hx, fun j hj y hy => ?_⟩
  rcases List.mem_append.mp hj with hbefore | hrest
  · have hhole := Option.map_eq_none_iff.mp (hholes j hbefore)
    rw [hhole] at hy
    exact absurd hy (by simp)
  · rcases List.mem_cons.mp hrest with rfl | hafter
    · exact .inl rfl
    · have hcons := (List.pairwise_append.mp hsorted).2.1
      exact .inr ((List.pairwise_cons.mp hcons).1 j hafter)

/-- The places before one, the nearest first. -/
def placesBefore (k : Nat) : List Nat := (List.range k).reverse

/-- The places after one, up to the end. -/
def placesAfter (k n : Nat) : List Nat := List.range' (k + 1) (n - (k + 1))

theorem mem_placesBefore : i ∈ placesBefore k ↔ i < k := by
  unfold placesBefore
  rw [List.mem_reverse, List.mem_range]

theorem mem_placesAfter : i ∈ placesAfter k n ↔ k < i ∧ i < n := by
  unfold placesAfter
  rw [List.mem_range'_1]
  omega

theorem pairwise_placesBefore : (placesBefore k).Pairwise (· > ·) :=
  List.pairwise_reverse.mpr List.pairwise_lt_range

theorem pairwise_placesAfter : (placesAfter k n).Pairwise (· < ·) :=
  List.pairwise_lt_range'

/-- **Insertion.** A sequence stays in order if and only if what is inserted is greater than its
nearest neighbour before and less than the one after. -/
theorem ascending_update_iff [IsTrans α lt] (h : Ascending lt f) (hend : ∀ i, n ≤ i → f i = none) :
    Ascending lt (Function.update f k (some x)) ↔
      (∀ i y, nearest f (placesBefore k) = some (i, y) → lt y x) ∧
        ∀ i y, nearest f (placesAfter k n) = some (i, y) → lt x y := by
  constructor
  · intro hnew
    refine ⟨fun i y hi => ?_, fun i y hi => ?_⟩
    · obtain ⟨hmem, hy, -⟩ := nearest_eq_some pairwise_placesBefore hi
      have hik := mem_placesBefore.mp hmem
      refine hnew i k y x hik ?_ (Function.update_self ..)
      rw [Function.update_of_ne (Nat.ne_of_lt hik), hy]
    · obtain ⟨hmem, hy, -⟩ := nearest_eq_some pairwise_placesAfter hi
      have hki := (mem_placesAfter.mp hmem).1
      refine hnew k i x y hki (Function.update_self ..) ?_
      rw [Function.update_of_ne (Nat.ne_of_gt hki), hy]
  · rintro ⟨hbefore, hafter⟩
    -- what is not the nearest neighbour is beyond it
    have hless : ∀ i y, i < k → f i = some y → lt y x := by
      intro i y hik hy
      cases hnear : nearest f (placesBefore k) with
      | none =>
        rw [nearest_eq_none.mp hnear i (mem_placesBefore.mpr hik)] at hy
        exact absurd hy (by simp)
      | some p =>
        obtain ⟨-, hp, hbeyond⟩ := nearest_eq_some pairwise_placesBefore hnear
        have hpx := hbefore p.1 p.2 hnear
        rcases hbeyond i (mem_placesBefore.mpr hik) y hy with rfl | hlt
        · rw [hp] at hy
          exact Option.some.inj hy ▸ hpx
        · exact IsTrans.trans _ _ _ (h i p.1 y p.2 hlt hy hp) hpx
    have hgreater : ∀ j y, k < j → f j = some y → lt x y := by
      intro j y hkj hy
      have hjn : j < n := by
        by_contra hj
        rw [hend j (by omega)] at hy
        exact absurd hy (by simp)
      cases hnear : nearest f (placesAfter k n) with
      | none =>
        rw [nearest_eq_none.mp hnear j (mem_placesAfter.mpr ⟨hkj, hjn⟩)] at hy
        exact absurd hy (by simp)
      | some p =>
        obtain ⟨-, hp, hbeyond⟩ := nearest_eq_some pairwise_placesAfter hnear
        have hxp := hafter p.1 p.2 hnear
        rcases hbeyond j (mem_placesAfter.mpr ⟨hkj, hjn⟩) y hy with rfl | hlt
        · rw [hp] at hy
          exact Option.some.inj hy ▸ hxp
        · exact IsTrans.trans _ _ _ hxp (h p.1 j p.2 y hlt hp hy)
    intro i j y z hij hy hz
    by_cases hik : i = k
    · subst hik
      rw [Function.update_self] at hy
      rw [Function.update_of_ne (Nat.ne_of_gt hij)] at hz
      exact Option.some.inj hy ▸ hgreater j z hij hz
    · rw [Function.update_of_ne hik] at hy
      by_cases hjk : j = k
      · subst hjk
        rw [Function.update_self] at hz
        exact Option.some.inj hz ▸ hless i y hij hy
      · rw [Function.update_of_ne hjk] at hz
        exact h i j y z hij hy hz

end Sparse
