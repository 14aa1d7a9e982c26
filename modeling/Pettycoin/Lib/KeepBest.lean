import Mathlib.Order.Lattice
import Mathlib.Data.List.Basic

/-!
# Keeping the best of a list

A scan that keeps the elements of greatest weight met so far: a heavier one
replaces them, an equally heavy one is appended.

* `mem_foldl_keepBest` — what is kept are the heaviest of all, those at the
  start included.
* `head_foldl_keepBest` — the first kept is the first that no earlier one
  equals in weight.
-/

namespace KeepBest

variable {α β : Type*} [LinearOrder β] (w : α → β)

/-- Meet one more element. -/
def keepBest : List α → α → List α
  | [], x => [x]
  | b :: bests, x =>
    if w b < w x then [x] else if w x = w b then b :: bests ++ [x] else b :: bests

/-- All of the same weight, and at least one. -/
structure Level (bests : List α) : Prop where
  ne_nil : bests ≠ []
  same : ∀ x ∈ bests, ∀ y ∈ bests, w x = w y

variable {w}

omit [LinearOrder β] in
theorem level_singleton (x : α) : Level w [x] where
  ne_nil := List.cons_ne_nil _ _
  same := by
    intro a ha b hb
    rw [List.mem_singleton.mp ha, List.mem_singleton.mp hb]

/-- What one step keeps. -/
theorem mem_keepBest {bests : List α} (h : Level w bests) {x y : α} :
    y ∈ keepBest w bests x ↔ (y ∈ bests ∨ y = x) ∧ w x ≤ w y ∧ ∀ z ∈ bests, w z ≤ w y := by
  obtain ⟨b, bests, rfl⟩ := List.exists_cons_of_ne_nil h.ne_nil
  have hb : ∀ z ∈ b :: bests, w z = w b := fun z hz => h.same z hz b List.mem_cons_self
  rw [keepBest]
  by_cases hlt : w b < w x
  · rw [if_pos hlt, List.mem_singleton]
    constructor
    · rintro rfl
      exact ⟨Or.inr rfl, le_rfl, fun z hz => (hb z hz).trans_le hlt.le⟩
    · rintro ⟨hy | hy, hxy, -⟩
      · rw [hb y hy] at hxy
        exact absurd hlt (not_lt.mpr hxy)
      · exact hy
  · rw [if_neg hlt]
    by_cases heq : w x = w b
    · rw [if_pos heq, List.mem_append, List.mem_singleton]
      constructor
      · rintro (hy | rfl)
        · exact ⟨Or.inl hy, (heq.trans (hb y hy).symm).le, fun z hz => (h.same z hz y hy).le⟩
        · exact ⟨Or.inr rfl, le_rfl, fun z hz => ((hb z hz).trans heq.symm).le⟩
      · rintro ⟨hy, -, -⟩
        exact hy
    · rw [if_neg heq]
      have hgt : w x < w b := lt_of_le_of_ne (not_lt.mp hlt) heq
      constructor
      · intro hy
        exact ⟨Or.inl hy, hgt.le.trans (hb y hy).symm.le, fun z hz => (h.same z hz y hy).le⟩
      · rintro ⟨hy | rfl, -, hz⟩
        · exact hy
        · exact absurd (hz b List.mem_cons_self) (not_le.mpr hgt)

theorem level_keepBest {bests : List α} (h : Level w bests) (x : α) :
    Level w (keepBest w bests x) where
  ne_nil := by
    obtain ⟨b, bests, rfl⟩ := List.exists_cons_of_ne_nil h.ne_nil
    rw [keepBest]
    split_ifs <;> simp
  same := by
    intro y hy z hz
    obtain ⟨hy, hxy, hly⟩ := (mem_keepBest h).mp hy
    obtain ⟨hz, hxz, hlz⟩ := (mem_keepBest h).mp hz
    apply le_antisymm
    · rcases hy with hy | rfl
      · exact hlz y hy
      · exact hxz
    · rcases hz with hz | rfl
      · exact hly z hz
      · exact hxy

theorem level_foldl_keepBest {bests : List α} (h : Level w bests) (l : List α) :
    Level w (l.foldl (keepBest w) bests) := by
  induction l generalizing bests with
  | nil => exact h
  | cons x l ih => exact ih (level_keepBest h x)

/-- A scan keeps the heaviest of all it started with and met. -/
theorem mem_foldl_keepBest {bests : List α} (h : Level w bests) {l : List α} {y : α} :
    y ∈ l.foldl (keepBest w) bests ↔
      (y ∈ bests ∨ y ∈ l) ∧ ∀ z, z ∈ bests ∨ z ∈ l → w z ≤ w y := by
  induction l generalizing bests with
  | nil =>
    simp only [List.foldl_nil, List.not_mem_nil, or_false]
    exact ⟨fun hy => ⟨hy, fun z hz => (h.same z hz y hy).le⟩, And.left⟩
  | cons x l ih =>
    rw [List.foldl_cons, ih (level_keepBest h x)]
    constructor
    · rintro ⟨hy, hall⟩
      obtain ⟨m, hm⟩ := List.exists_mem_of_ne_nil _ (level_keepBest h x).ne_nil
      have hmy := hall m (Or.inl hm)
      obtain ⟨-, hxm, hlm⟩ := (mem_keepBest h).mp hm
      constructor
      · rcases hy with hy | hy
        · rcases ((mem_keepBest h).mp hy).1 with hy | rfl
          · exact Or.inl hy
          · exact Or.inr List.mem_cons_self
        · exact Or.inr (List.mem_cons_of_mem _ hy)
      · rintro z (hz | hz)
        · exact (hlm z hz).trans hmy
        · rcases List.mem_cons.mp hz with rfl | hz
          · exact hxm.trans hmy
          · exact hall z (Or.inr hz)
    · rintro ⟨hy, hall⟩
      refine ⟨?_, ?_⟩
      · rcases hy with hy | hy
        · exact Or.inl ((mem_keepBest h).mpr ⟨Or.inl hy,
            hall x (Or.inr List.mem_cons_self), fun z hz => hall z (Or.inl hz)⟩)
        · rcases List.mem_cons.mp hy with rfl | hy
          · exact Or.inl ((mem_keepBest h).mpr ⟨Or.inr rfl, le_rfl,
              fun z hz => hall z (Or.inl hz)⟩)
          · exact Or.inr hy
      · rintro z (hz | hz)
        · rcases ((mem_keepBest h).mp hz).1 with hz | rfl
          · exact hall z (Or.inl hz)
          · exact hall _ (Or.inr List.mem_cons_self)
        · exact hall z (Or.inr (List.mem_cons_of_mem _ hz))

/-- The first kept is the first of its weight, and none before is heavier. -/
theorem head_foldl_keepBest {a m : α} {bests l : List α}
    (h : (l.foldl (keepBest w) (a :: bests)).head? = some m) :
    ∃ l₁ l₂, a :: l = l₁ ++ m :: l₂ ∧ ∀ y ∈ l₁, w y < w m := by
  induction l generalizing a bests with
  | nil =>
    injection h with h
    exact ⟨[], [], by rw [h]; rfl, by simp⟩
  | cons x l ih =>
    rw [List.foldl_cons, keepBest] at h
    by_cases hlt : w a < w x
    · rw [if_pos hlt] at h
      obtain ⟨l₁, l₂, heq, hbefore⟩ := ih h
      have hxm : w x ≤ w m := by
        cases l₁ with
        | nil =>
          injection heq with heq
          rw [heq]
        | cons y l₁ =>
          injection heq with heq
          exact heq ▸ (hbefore y List.mem_cons_self).le
      refine ⟨a :: l₁, l₂, by rw [heq]; rfl, fun y hy => ?_⟩
      rcases List.mem_cons.mp hy with rfl | hy
      · exact hlt.trans_le hxm
      · exact hbefore y hy
    · rw [if_neg hlt] at h
      -- the head stays: `x` comes right after it and is no heavier
      have hkeep : ∃ bests', (l.foldl (keepBest w) (a :: bests')).head? = some m := by
        by_cases heq : w x = w a
        · exact ⟨bests ++ [x], by rwa [if_pos heq] at h⟩
        · exact ⟨bests, by rwa [if_neg heq] at h⟩
      obtain ⟨bests', h'⟩ := hkeep
      obtain ⟨l₁, l₂, heq, hbefore⟩ := ih h'
      cases l₁ with
      | nil =>
        injection heq with ham hl
        exact ⟨[], x :: l, by rw [ham]; rfl, by simp⟩
      | cons y l₁ =>
        injection heq with hay hl
        subst hay
        refine ⟨a :: x :: l₁, l₂, by rw [hl]; rfl, fun y hy => ?_⟩
        rcases List.mem_cons.mp hy with rfl | hy
        · exact hbefore y List.mem_cons_self
        · rcases List.mem_cons.mp hy with rfl | hy
          · exact (not_lt.mp hlt).trans_lt (hbefore a List.mem_cons_self)
          · exact hbefore y (List.mem_cons_of_mem _ hy)

/-- What is kept stays in order. -/
theorem keepBest_sublist (bests : List α) (x : α) :
    (keepBest w bests x).Sublist (bests ++ [x]) := by
  cases bests with
  | nil => exact List.Sublist.refl _
  | cons b bests =>
    rw [keepBest]
    split_ifs
    · exact List.sublist_append_right _ _
    · exact List.Sublist.refl _
    · exact List.sublist_append_left _ _

theorem foldl_keepBest_sublist (bests l : List α) :
    (l.foldl (keepBest w) bests).Sublist (bests ++ l) := by
  induction l generalizing bests with
  | nil => rw [List.append_nil]; exact List.Sublist.refl _
  | cons x l ih =>
    rw [List.foldl_cons]
    have hstep := (keepBest_sublist (w := w) bests x).append (List.Sublist.refl l)
    rw [List.append_assoc] at hstep
    exact (ih _).trans hstep

end KeepBest
