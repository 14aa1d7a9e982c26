import Mathlib.Data.List.Count
import Mathlib.Data.List.Infix
import Mathlib.Data.List.Nodup

/-!
# Telling things once

A party keeps a stock of items and a log of those it has told others about. It
tells each for the first time (`TellsOnce`) if whatever it adds to the log was new
to it and is in its stock from then on.

* `TellsOnce.trans`: one call after the other.
* `count_told_le_one`: over a run, where the stock may lose items again: an item that
  is not lost is told of once at most.
-/

namespace Novelty

variable {σ ι : Type*} {stock : σ → ι → Prop} {log : σ → List ι} {s s₁ s₂ : σ}

/-- From `s` to `s₁` nothing is lost, and what is told of is new. -/
structure TellsOnce (stock : σ → ι → Prop) (log : σ → List ι) (s s₁ : σ) : Prop where
  keeps : ∀ i, stock s i → stock s₁ i
  told : ∃ new, log s₁ = log s ++ new ∧ new.Nodup ∧ ∀ i ∈ new, ¬ stock s i ∧ stock s₁ i

theorem TellsOnce.refl (s : σ) : TellsOnce stock log s s :=
  ⟨fun _ => id, [], (List.append_nil _).symm, List.nodup_nil, fun _ h => absurd h List.not_mem_nil⟩

theorem TellsOnce.trans (h : TellsOnce stock log s s₁) (h' : TellsOnce stock log s₁ s₂) :
    TellsOnce stock log s s₂ := by
  obtain ⟨new, hlog, hnodup, hnew⟩ := h.told
  obtain ⟨new', hlog', hnodup', hnew'⟩ := h'.told
  refine ⟨fun i hi => h'.keeps i (h.keeps i hi), new ++ new', ?_, ?_, fun i hi => ?_⟩
  · rw [hlog', hlog, List.append_assoc]
  · refine hnodup.append hnodup' fun i hi hi' => ?_
    exact (hnew' i hi').1 (hnew i hi).2
  · rcases List.mem_append.mp hi with hold | hlate
    · exact ⟨(hnew i hold).1, h'.keeps i (hnew i hold).2⟩
    · exact ⟨fun hs => (hnew' i hlate).1 (h.keeps i hs), (hnew' i hlate).2⟩

/-- Nothing is told. -/
theorem TellsOnce.silent (hkeeps : ∀ i, stock s i → stock s₁ i) (hlog : log s₁ = log s) :
    TellsOnce stock log s s₁ :=
  ⟨hkeeps, [], by rw [hlog, List.append_nil], List.nodup_nil,
    fun _ h => absurd h List.not_mem_nil⟩

/-- An item is taken into stock first, and told of in the end. -/
theorem TellsOnce.announce {i : ι} {s₃ : σ} (hkeeps : ∀ j, stock s j → stock s₁ j)
    (hlog : log s₁ = log s) (hnew : ¬ stock s i) (hi : stock s₁ i)
    (h : TellsOnce stock log s₁ s₂) (hkeeps' : ∀ j, stock s₂ j → stock s₃ j)
    (hlog' : log s₃ = log s₂ ++ [i]) : TellsOnce stock log s s₃ := by
  obtain ⟨new, hnews, hnodup, hfresh⟩ := h.told
  have hkept : ∀ j, stock s₁ j → stock s₃ j := fun j hj => hkeeps' j (h.keeps j hj)
  refine ⟨fun j hj => hkept j (hkeeps j hj), new ++ [i], ?_, ?_, fun j hj => ?_⟩
  · rw [hlog', hnews, hlog, List.append_assoc]
  · refine hnodup.append (List.nodup_singleton i) fun j hj hj' => ?_
    obtain rfl := List.mem_singleton.mp hj'
    exact (hfresh j hj).1 hi
  · rcases List.mem_append.mp hj with hold | hlast
    · exact ⟨fun hs => (hfresh j hold).1 (hkeeps j hs), hkeeps' j (hfresh j hold).2⟩
    · obtain rfl := List.mem_singleton.mp hlast
      exact ⟨hnew, hkept j hi⟩

/-- A step repeated over a list. -/
theorem TellsOnce.foldl {α : Type*} {f : σ → α → σ} {l : List α}
    (hf : ∀ s a, a ∈ l → TellsOnce stock log s (f s a)) : TellsOnce stock log s (l.foldl f s) := by
  induction l generalizing s with
  | nil => exact .refl s
  | cons a l ih =>
    exact (hf s a List.mem_cons_self).trans (ih fun s b hb => hf s b (List.mem_cons_of_mem a hb))

-- ---------------------------------------------------------------------------
-- Runs that may lose items
-- ---------------------------------------------------------------------------

variable [DecidableEq ι] {τ : Type*} {steps : List τ} {before : τ → ι → Prop} {told : τ → List ι}

/-- In a run, newest step first, an item is told of once at most, if each step tells of what
is new only, and the item stays in stock once it is told of. -/
theorem count_told_le_one {i : ι} (hnodup : ∀ step ∈ steps, (told step).Nodup)
    (hnew : ∀ step ∈ steps, i ∈ told step → ¬ before step i)
    (hkept : steps.Pairwise fun later earlier => i ∈ told earlier → before later i) :
    (steps.flatMap told).count i ≤ 1 := by
  induction steps with
  | nil => exact Nat.zero_le 1
  | cons step steps ih =>
    obtain ⟨hfirst, hrest⟩ := List.pairwise_cons.mp hkept
    have hih := ih (fun t ht => hnodup t (List.mem_cons_of_mem step ht))
      (fun t ht => hnew t (List.mem_cons_of_mem step ht)) hrest
    rw [List.flatMap_cons, List.count_append]
    by_cases hi : i ∈ told step
    · have hnone : i ∉ steps.flatMap told := by
        intro hmem
        obtain ⟨t, ht, hit⟩ := List.mem_flatMap.mp hmem
        exact hnew step List.mem_cons_self hi (hfirst t ht hit)
      rw [List.count_eq_zero_of_not_mem hnone]
      exact List.nodup_iff_count_le_one.mp (hnodup step List.mem_cons_self) i
    · rw [List.count_eq_zero_of_not_mem hi, Nat.zero_add]
      exact hih

end Novelty
