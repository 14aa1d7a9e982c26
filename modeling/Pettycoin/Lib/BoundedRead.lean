import Mathlib.Data.List.Basic
import Mathlib.Tactic.Common

/-!
# Reading memory within bounds

A program that reads the bytes from a pointer on. It stops at the first byte
beyond those there are, so that a program that returns has read within them. What
lies behind them then makes no difference (`Local`).

* `Within.bind` — a program that stays inside goes on inside;
* `Local.bind`, `Local.read` — what lies behind the bytes is nothing to it;
* `foldlM_range` — loops over an index.
-/

namespace BoundedRead

/-- Why a program did not return. -/
inductive Stop
  /-- It read beyond this many bytes. -/
  | overrun (length : Nat)
  /-- `abort()`. -/
  | abort
deriving DecidableEq

/-- A program that reads bytes. -/
abbrev Read (β α : Type) := ReaderT (List β) (Except Stop) α

variable {β α γ : Type}

/-- The `n` bytes from an offset on. -/
def read (off n : Nat) : Read β (List β) := fun mem =>
  if off + n ≤ mem.length then .ok ((mem.drop off).take n) else .error (.overrun mem.length)

/-- `abort()`. -/
def abort : Read β α := fun _ => .error .abort

/-- A program that is given a pointer so far into the memory. -/
def seek (off : Nat) (x : Read β α) : Read β α := fun mem => x (mem.drop off)

@[simp] theorem pure_apply (a : α) (mem : List β) : (pure a : Read β α) mem = .ok a := rfl

@[simp] theorem seek_apply (off : Nat) (x : Read β α) (mem : List β) :
    seek off x mem = x (mem.drop off) := rfl

@[simp] theorem bind_apply (x : Read β α) (f : α → Read β γ) (mem : List β) :
    (x >>= f) mem = x mem >>= fun a => f a mem := rfl

variable {mem rest : List β} {off n : Nat}

theorem read_of_le (h : off + n ≤ mem.length) : read off n mem = .ok ((mem.drop off).take n) :=
  if_pos h

theorem of_read_eq_ok {bs : List β} (h : read off n mem = .ok bs) :
    off + n ≤ mem.length ∧ bs = (mem.drop off).take n := by
  unfold read at h
  split_ifs at h with hle
  exact ⟨hle, (Except.ok.inj h).symm⟩

-- ---------------------------------------------------------------------------
-- Staying within bounds
-- ---------------------------------------------------------------------------

/-- The program reads no byte beyond these. -/
def Within (x : Read β α) (mem : List β) : Prop := ∃ a, x mem = .ok a

theorem Within.bind {x : Read β α} {f : α → Read β γ} {a : α} (hx : x mem = .ok a)
    (hf : Within (f a) mem) : Within (x >>= f) mem := by
  obtain ⟨c, hc⟩ := hf
  exact ⟨c, by rw [bind_apply, hx]; exact hc⟩

/-- A sequence that returns is one whose parts do. -/
theorem Within.of_bind {x : Read β α} {f : α → Read β γ} (h : Within (x >>= f) mem) :
    ∃ a, x mem = .ok a ∧ Within (f a) mem := by
  obtain ⟨c, hc⟩ := h
  rw [bind_apply] at hc
  cases hx : x mem with
  | error e =>
    rw [hx] at hc
    exact absurd hc (by exact fun h => nomatch h)
  | ok a =>
    rw [hx] at hc
    exact ⟨a, rfl, c, hc⟩

/-- A loop over an array, of which each turn reads one element. -/
theorem foldlM_range {σ : Type} {step : σ → Nat → Read β σ} {f : σ → α → σ} {l : List α}
    (h : ∀ (acc : σ) (i : Nat) (hi : i < l.length), step acc i mem = .ok (f acc l[i])) (acc : σ) :
    (List.range l.length).foldlM step acc mem = .ok (l.foldl f acc) := by
  have hfirst : ∀ n ≤ l.length,
      (List.range n).foldlM step acc mem = .ok ((l.take n).foldl f acc) := by
    intro n hn
    induction n with
    | zero => rfl
    | succ n ih =>
      have hlt : n < l.length := hn
      rw [List.range_succ, List.foldlM_append, bind_apply, ih (Nat.le_of_succ_le hn)]
      show (step _ n >>= _) mem = _
      rw [bind_apply, h _ n hlt, ← List.take_append_getElem hlt, List.foldl_append]
      rfl
  rw [hfirst l.length (Nat.le_refl _), List.take_length]

-- ---------------------------------------------------------------------------
-- What lies behind
-- ---------------------------------------------------------------------------

/-- What follows the bytes that were read makes no difference. -/
def Local (x : Read β α) : Prop := ∀ ⦃mem rest : List β⦄ ⦃a : α⦄, x mem = .ok a → x (mem ++ rest) = .ok a

theorem Local.pure (a : α) : Local (Pure.pure a : Read β α) := fun _ _ _ h => h

theorem Local.abort : Local (abort : Read β α) := fun _ _ _ h => nomatch h

theorem Local.read (off n : Nat) : Local (read off n : Read β (List β)) := by
  intro mem rest bs h
  obtain ⟨hle, rfl⟩ := of_read_eq_ok h
  have hle' : off + n ≤ (mem ++ rest).length := by
    rw [List.length_append]
    omega
  rw [read_of_le hle', List.drop_append_of_le_length (by omega),
    List.take_append_of_le_length (by rw [List.length_drop]; omega)]

theorem Local.bind {x : Read β α} {f : α → Read β γ} (hx : Local x) (hf : ∀ a, Local (f a)) :
    Local (x >>= f) := by
  intro mem rest c h
  rw [bind_apply] at h ⊢
  cases hxm : x mem with
  | error e =>
    rw [hxm] at h
    exact nomatch h
  | ok a =>
    rw [hxm] at h
    rw [hx hxm]
    exact hf a h

theorem Local.ite {c : Prop} [Decidable c] {x y : Read β α} (hx : Local x) (hy : Local y) :
    Local (if c then x else y) := by
  split_ifs
  · exact hx
  · exact hy

end BoundedRead
