import Mathlib.Data.Fin.Tuple.Basic
import Mathlib.Data.List.Forall2

/-!
# Rules for computations that may stop

`Except ε α` as the result of a call that either returns or stops. The rules
say when a sequence of such calls returns, and lift what one call preserves to
a whole list of calls (`foldlM_ok`, `foldlM_preserves`).

`Ensures F x P` is the postcondition `P` of a call that may stop with the faults
`F`; its rules follow the shape of the program (`Ensures.bind`,
`Ensures.foldlM`).

* `bind_eq_ok` — a call returns if both of its parts do;
* `foldlM_ok`, `foldlM_preserves` — loops;
* `Ensures.bind`, `Ensures.weaken` — postconditions.
-/

namespace ExceptRules

variable {ε α β σ : Type*}

@[simp] theorem ok_bind {α β : Type u} (a : α) (f : α → Except ε β) :
    (Except.ok a >>= f) = f a := rfl

@[simp] theorem error_bind {α β : Type u} (e : ε) (f : α → Except ε β) :
    ((Except.error e : Except ε α) >>= f) = Except.error e := rfl

@[simp] theorem pure_eq_ok {α : Type u} (a : α) : (pure a : Except ε α) = Except.ok a := rfl

/-- A sequence returns exactly when both calls do. -/
theorem bind_eq_ok {α β : Type u} {x : Except ε α} {f : α → Except ε β} {b : β} :
    x >>= f = .ok b ↔ ∃ a, x = .ok a ∧ f a = .ok b := by
  cases x with
  | error e => simp
  | ok a => simp

theorem eq_ok_of_toOption {x : Except ε α} {a : α} (h : x.toOption = some a) : x = .ok a := by
  cases x with
  | error e => exact absurd h (by simp [Except.toOption])
  | ok b => exact congrArg Except.ok (Option.some.inj h)

/-- A program that got past a guard. -/
theorem of_guard_eq_ok {c : Prop} [Decidable c] {e : ε} {x : Except ε α} {a : α}
    (h : (if c then .error e else x) = .ok a) : ¬ c ∧ x = .ok a := by
  split_ifs at h with hc
  exact ⟨hc, h⟩

/-- Peel the first call off a sequence that returned. -/
theorem of_bind_eq_ok {α β : Type u} {x : Except ε α} {f : α → Except ε β} {b : β}
    (h : x >>= f = .ok b) : ∃ a, x = .ok a ∧ f a = .ok b :=
  bind_eq_ok.mp h

/-- Evaluate `f 0`, …, `f (n - 1)` in order. -/
def ofFn : {n : ℕ} → (Fin n → Except ε α) → Except ε (Fin n → α)
  | 0, _ => .ok Fin.elim0
  | _ + 1, f => do
    let a ← f 0
    let as ← ofFn fun i => f i.succ
    .ok (Fin.cons a as)

/-- `ofFn` returns the values exactly when every entry returns its own. -/
theorem ofFn_eq_ok {n : ℕ} {f : Fin n → Except ε α} {g : Fin n → α} :
    ofFn f = .ok g ↔ ∀ i, f i = .ok (g i) := by
  induction n with
  | zero =>
    simp only [ofFn, IsEmpty.forall_iff, iff_true]
    exact congrArg Except.ok (Subsingleton.elim _ _)
  | succ n ih =>
    simp only [ofFn, bind_eq_ok]
    constructor
    · rintro ⟨a, ha, as, has, hg⟩ i
      injection hg with hg
      subst hg
      cases i using Fin.cases with
      | zero => exact ha
      | succ i => exact ih.mp has i
    · intro h
      exact ⟨g 0, h 0, fun i => g i.succ, ih.mpr fun i => h i.succ,
        congrArg Except.ok (Fin.cons_self_tail g)⟩

/-- If every call preserves `P`, so does a list of calls that returns. -/
theorem foldlM_preserves {σ : Type u} {step : σ → α → Except ε σ} {P : σ → Prop} {l : List α}
    {s s' : σ}
    (hstep : ∀ s s' a, a ∈ l → P s → step s a = .ok s' → P s') (hs : P s)
    (h : l.foldlM step s = .ok s') : P s' := by
  induction l generalizing s with
  | nil =>
    rw [List.foldlM_nil] at h
    injection h with h
    exact h ▸ hs
  | cons a l ih =>
    rw [List.foldlM_cons] at h
    obtain ⟨s₁, hs₁, hrest⟩ := of_bind_eq_ok h
    exact ih (fun s s' b hb => hstep s s' b (List.mem_cons_of_mem a hb))
      (hstep s s₁ a List.mem_cons_self hs hs₁) hrest

/-- If every call returns and preserves `P`, so does a list of calls. -/
theorem foldlM_ok {σ : Type u} {step : σ → α → Except ε σ} {P : σ → Prop} {l : List α} {s : σ}
    (hstep : ∀ s a, a ∈ l → P s → ∃ s', step s a = .ok s' ∧ P s') (hs : P s) :
    ∃ s', l.foldlM step s = .ok s' ∧ P s' := by
  induction l generalizing s with
  | nil => exact ⟨s, rfl, hs⟩
  | cons a l ih =>
    obtain ⟨s₁, hs₁, hP₁⟩ := hstep s a List.mem_cons_self hs
    obtain ⟨s', hs', hP'⟩ :=
      ih (fun s b hb => hstep s b (List.mem_cons_of_mem a hb)) hP₁
    exact ⟨s', by rw [List.foldlM_cons, hs₁, ok_bind, hs'], hP'⟩

/-- If every call returns, so does a list of calls. -/
theorem forM_ok {f : α → Except ε PUnit.{v + 1}} {l : List α} (h : ∀ a ∈ l, f a = .ok ⟨⟩) :
    l.forM f = .ok ⟨⟩ := by
  induction l with
  | nil => rfl
  | cons a l ih =>
    show (f a >>= fun _ => l.forM f) = _
    rw [h a List.mem_cons_self, ok_bind]
    exact ih fun b hb => h b (List.mem_cons_of_mem a hb)

/-- What `mapM` makes of a list where every call succeeds. -/
theorem forall₂_of_mapM {f : α → Option β} {l : List α} {l' : List β} (h : l.mapM f = some l') :
    List.Forall₂ (fun a b => f a = some b) l l' := by
  induction l generalizing l' with
  | nil =>
    obtain rfl := Option.some.inj h
    exact .nil
  | cons a l ih =>
    rw [List.mapM_cons] at h
    obtain ⟨b, hb, h⟩ := Option.bind_eq_some_iff.mp h
    obtain ⟨bs, hbs, h⟩ := Option.bind_eq_some_iff.mp h
    obtain rfl := Option.some.inj h
    exact .cons hb (ih hbs)

/-- If every call returns, so does a list of calls, with the values they return. -/
theorem mapM_ok {α β γ : Type u} {f : α → Except ε β} {g : α → γ} {view : β → γ} {l : List α}
    (h : ∀ a ∈ l, ∃ b, f a = .ok b ∧ view b = g a) :
    ∃ bs, l.mapM f = .ok bs ∧ bs.map view = l.map g := by
  induction l with
  | nil => exact ⟨[], rfl, rfl⟩
  | cons a l ih =>
    obtain ⟨b, hb, hview⟩ := h a List.mem_cons_self
    obtain ⟨bs, hbs, hviews⟩ := ih fun c hc => h c (List.mem_cons_of_mem a hc)
    refine ⟨b :: bs, ?_, ?_⟩
    · rw [List.mapM_cons, hb, ok_bind, hbs]
      rfl
    · rw [List.map_cons, List.map_cons, hview, hviews]

-- ---------------------------------------------------------------------------
-- Postconditions
-- ---------------------------------------------------------------------------

/-- What the call returns satisfies `P`, and where it stops is one of `F`. -/
def Ensures (F : ε → Prop) (x : Except ε α) (P : α → Prop) : Prop :=
  match x with
  | .ok a => P a
  | .error e => F e

variable {F : ε → Prop} {P : α → Prop}

@[simp] theorem ensures_ok {a : α} : Ensures F (.ok a) P ↔ P a := Iff.rfl

@[simp] theorem ensures_error {e : ε} : Ensures F (.error e : Except ε α) P ↔ F e := Iff.rfl

theorem Ensures.of_ok {x : Except ε α} (h : Ensures F x P) {a : α} (hx : x = .ok a) : P a := by
  rw [hx] at h
  exact h

theorem Ensures.of_error {x : Except ε α} (h : Ensures F x P) {e : ε} (hx : x = .error e) :
    F e := by
  rw [hx] at h
  exact h

theorem Ensures.mono {x : Except ε α} {Q : α → Prop} (h : Ensures F x P)
    (hPQ : ∀ a, P a → Q a) : Ensures F x Q := by
  cases x with
  | ok a => exact hPQ a h
  | error e => exact h

/-- `mono` for a result that the call really returns. -/
theorem Ensures.mono_ok {x : Except ε α} {Q : α → Prop} (h : Ensures F x P)
    (hPQ : ∀ a, x = .ok a → P a → Q a) : Ensures F x Q := by
  cases x with
  | ok a => exact hPQ a rfl h
  | error e => exact h

/-- More faults may be allowed. -/
theorem Ensures.weaken {x : Except ε α} {G : ε → Prop} (h : Ensures F x P)
    (hFG : ∀ e, F e → G e) : Ensures G x P := by
  cases x with
  | ok a => exact h
  | error e => exact hFG e h

/-- A sequence: what the first call ensures is what the second may rely on. -/
theorem Ensures.bind {α β : Type u} {x : Except ε α} {f : α → Except ε β} {P : α → Prop}
    {Q : β → Prop} (hx : Ensures F x P) (hf : ∀ a, P a → Ensures F (f a) Q) :
    Ensures F (x >>= f) Q := by
  cases x with
  | ok a => exact hf a hx
  | error e => exact hx

/-- A list of calls, each of which keeps `P`. -/
theorem Ensures.foldlM {σ : Type u} {step : σ → α → Except ε σ} {P : σ → Prop} {l : List α}
    {s : σ} (hstep : ∀ s a, a ∈ l → P s → Ensures F (step s a) P) (hs : P s) :
    Ensures F (l.foldlM step s) P := by
  induction l generalizing s with
  | nil => exact hs
  | cons a l ih =>
    rw [List.foldlM_cons]
    refine (hstep s a List.mem_cons_self hs).bind fun s₁ hs₁ => ?_
    exact ih (fun s b hb => hstep s b (List.mem_cons_of_mem a hb)) hs₁

/-- A list of calls that return nothing. -/
theorem Ensures.forM {α : Type u} {f : α → Except ε PUnit.{v + 1}} {l : List α}
    (hf : ∀ a ∈ l, Ensures F (f a) fun _ => True) :
    Ensures F (l.forM f) fun _ => True := by
  induction l with
  | nil => trivial
  | cons a l ih =>
    show Ensures F (f a >>= fun _ => l.forM f) _
    refine (hf a List.mem_cons_self).bind fun _ _ => ?_
    exact ih fun b hb => hf b (List.mem_cons_of_mem a hb)

/-- A call for each element of a list. -/
theorem Ensures.mapM {α β : Type u} {f : α → Except ε β} {l : List α}
    (hf : ∀ a ∈ l, Ensures F (f a) fun _ => True) :
    Ensures F (l.mapM f) fun _ => True := by
  induction l with
  | nil => trivial
  | cons a l ih =>
    rw [List.mapM_cons]
    refine (hf a List.mem_cons_self).bind fun _ _ => ?_
    exact (ih fun b hb => hf b (List.mem_cons_of_mem a hb)).bind fun _ _ => trivial

/-- A call for each index. -/
theorem Ensures.ofFn {n : ℕ} {f : Fin n → Except ε α}
    (hf : ∀ i, Ensures F (f i) fun _ => True) :
    Ensures F (ExceptRules.ofFn f) fun _ => True := by
  induction n with
  | zero => trivial
  | succ n ih =>
    refine (hf 0).bind fun _ _ => ?_
    exact (ih fun i => hf i.succ).bind fun _ _ => trivial

end ExceptRules
