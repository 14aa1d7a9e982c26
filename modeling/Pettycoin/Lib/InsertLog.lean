import Mathlib.Data.List.Induction
import Mathlib.Data.List.InsertIdx
import Mathlib.Logic.Function.Basic

/-!
# Replaying insertions

Arrays that grow by insertions at given positions, and a log of these: whoever
replays the log from the same arrays comes to the same arrays (`Replays`). An
insertion is only admitted where its array has a place for it and is not full.

* `Replays.snoc` — one more insertion at the end of the log.
* `replays_fill` — a log that fills the arrays one after the other, each from its
  beginning.
-/

namespace InsertLog

variable {α β : Type*}

/-- An insertion into one of the arrays. -/
structure Insertion (α : Type*) where
  array : ℕ
  pos : ℕ
  val : α

/-- The arrays after the insertion. -/
def Insertion.apply (ins : Insertion α) (arrays : ℕ → List α) : ℕ → List α :=
  Function.update arrays ins.array ((arrays ins.array).insertIdx ins.pos ins.val)

/-- One of the first `n` arrays has a place there, and fewer than `bound` elements. -/
structure Insertion.Fits (n bound : ℕ) (ins : Insertion α) (arrays : ℕ → List α) : Prop where
  array_lt : ins.array < n
  pos_le : ins.pos ≤ (arrays ins.array).length
  room : (arrays ins.array).length < bound

/-- The log takes the first arrays to the last ones, and every insertion fits. -/
inductive Replays (n bound : ℕ) : (ℕ → List α) → List (Insertion α) → (ℕ → List α) → Prop
  | nil (arrays : ℕ → List α) : Replays n bound arrays [] arrays
  | cons {ins : Insertion α} {arrays arrays' : ℕ → List α} {log : List (Insertion α)} :
    ins.Fits n bound arrays → Replays n bound (ins.apply arrays) log arrays' →
    Replays n bound arrays (ins :: log) arrays'

variable {n bound : ℕ} {arrays arrays' arrays'' : ℕ → List α} {log log' : List (Insertion α)}

theorem Replays.append (h : Replays n bound arrays log arrays')
    (h' : Replays n bound arrays' log' arrays'') : Replays n bound arrays (log ++ log') arrays'' := by
  induction h with
  | nil => exact h'
  | cons hfits _ ih => exact .cons hfits (ih h')

/-- One more insertion at the end. -/
theorem Replays.snoc (h : Replays n bound arrays log arrays') (ins : Insertion α)
    (hfits : ins.Fits n bound arrays') :
    Replays n bound arrays (log ++ [ins]) (ins.apply arrays') :=
  h.append (.cons hfits (.nil _))

/-- The first insertion of a log fits, and the rest takes it from there. -/
theorem Replays.uncons {ins : Insertion α} (h : Replays n bound arrays (ins :: log) arrays') :
    ins.Fits n bound arrays ∧ Replays n bound (ins.apply arrays) log arrays' := by
  cases h with
  | cons hfits hrest => exact ⟨hfits, hrest⟩

/-- Arrays of images. -/
theorem Insertion.apply_map (f : α → β) (ins : Insertion α) (arrays : ℕ → List α) :
    (Insertion.mk ins.array ins.pos (f ins.val)).apply (fun i => (arrays i).map f)
      = fun i => (ins.apply arrays i).map f := by
  funext i
  unfold Insertion.apply
  dsimp only
  by_cases hi : i = ins.array
  · subst hi
    rw [Function.update_self, Function.update_self, List.map_insertIdx]
  · rw [Function.update_of_ne hi, Function.update_of_ne hi]

-- ---------------------------------------------------------------------------
-- Filling the arrays
-- ---------------------------------------------------------------------------

/-- The log that fills one array from its beginning. -/
def fillOne (array : ℕ) (l : List α) : List (Insertion α) :=
  l.mapIdx fun i a => ⟨array, i, a⟩

/-- The log that fills the first `k` arrays. -/
def fill (arrays : ℕ → List α) (k : ℕ) : List (Insertion α) :=
  (List.range k).flatMap fun i => fillOne i (arrays i)

theorem fillOne_snoc (array : ℕ) (l : List α) (a : α) :
    fillOne array (l ++ [a]) = fillOne array l ++ [⟨array, l.length, a⟩] := by
  unfold fillOne
  rw [List.mapIdx_append, List.mapIdx_cons, List.mapIdx_nil, Nat.zero_add]

/-- The log, place by place. -/
theorem fill_eq_places (arrays : ℕ → List α) (k : ℕ) :
    (fill arrays k).map some
      = ((List.range k).flatMap fun i => (List.range (arrays i).length).map fun j => (i, j)).map
          fun place => (arrays place.1)[place.2]?.map fun a => Insertion.mk place.1 place.2 a := by
  unfold fill
  rw [List.map_flatMap, List.map_flatMap]
  refine congrArg List.flatten (List.map_congr_left fun i _ => ?_)
  refine List.ext_getElem? fun j => ?_
  unfold fillOne
  rw [List.getElem?_map, List.getElem?_mapIdx, List.map_map, List.getElem?_map]
  by_cases hj : j < (arrays i).length
  · rw [List.getElem?_range hj, List.getElem?_eq_getElem hj]
    simp [hj]
  · rw [List.getElem?_eq_none (Nat.le_of_not_lt hj),
      List.getElem?_eq_none (by simpa using Nat.le_of_not_lt hj)]
    rfl

theorem replays_fillOne {array : ℕ} {l : List α} (harray : array < n) (hl : l.length ≤ bound)
    (hempty : arrays array = []) :
    Replays n bound arrays (fillOne array l) (Function.update arrays array l) := by
  induction l using List.reverseRecOn with
  | nil =>
    rw [show Function.update arrays array [] = arrays by rw [← hempty, Function.update_eq_self]]
    exact .nil _
  | append_singleton l a ih =>
    rw [List.length_append, List.length_singleton] at hl
    have hstep := (ih (by omega)).snoc ⟨array, l.length, a⟩
      ⟨harray, Nat.le_of_eq (by rw [Function.update_self]),
        by rw [Function.update_self]; omega⟩
    rw [fillOne_snoc]
    unfold Insertion.apply at hstep
    dsimp only at hstep
    rw [Function.update_self, Function.update_idem, List.insertIdx_length_self] at hstep
    exact hstep

/-- Filling the first arrays, the others being empty. -/
theorem replays_fill (hbound : ∀ i, (arrays i).length ≤ bound) {k : ℕ} (hk : k ≤ n) :
    Replays n bound (fun _ => []) (fill arrays k) fun i => if i < k then arrays i else [] := by
  induction k with
  | zero =>
    rw [show (fun i => if i < 0 then arrays i else []) = fun _ => [] from
      funext fun i => if_neg (Nat.not_lt_zero i)]
    exact .nil _
  | succ k ih =>
    have hone : Replays n bound (fun i => if i < k then arrays i else []) (fillOne k (arrays k))
        (Function.update (fun i => if i < k then arrays i else []) k (arrays k)) :=
      replays_fillOne (by omega) (hbound k) (if_neg (Nat.lt_irrefl k))
    have heq : Function.update (fun i => if i < k then arrays i else []) k (arrays k)
        = fun i => if i < k + 1 then arrays i else [] := by
      funext i
      by_cases hi : i = k
      · subst hi
        rw [Function.update_self, if_pos (Nat.lt_succ_self i)]
      · rw [Function.update_of_ne hi]
        exact if_congr (by omega) rfl rfl
    unfold fill
    rw [List.range_succ, List.flatMap_append, List.flatMap_singleton, ← heq]
    exact (ih (by omega)).append hone

end InsertLog
